import Mathlib.Order.Bounds.Defs
import RustStateMachine.Inclusion

/-!
# RPC handlers

The answer to a nonce request, against the smallest nonce that is not pending.
The hexadecimal decoder is outside the repository and enters as a parameter.
-/

namespace RustStateMachine

open Lib Lib.KeyValue Lib.Runs Std Support

/-! ## Handlers -/

namespace Rpc

/-- The status codes of the handlers. -/
inductive StatusCode where
  | accepted
  | badRequest
deriving DecidableEq

/-- The account that 32 bytes stand for. -/
def account? (bytes : Bytes) : Option Types.AccountId :=
  if h : bytes.length = 32 then some ⟨⟨bytes.toArray, h⟩⟩ else none

theorem account?_toList (a : Types.AccountId) : account? a.bytes.toList = some a := by
  rw [account?, dif_pos Vector.length_toList]
  rfl

variable {PeerId : Type}

/-- The first read of the handler: the nonce of the account in the runtime. -/
def runtimeNonce (account : Types.AccountId) : Exec NodeEvent (Node PeerId) Types.Nonce := do
  let self ← Exec.read
  return self.runtime.system.nonce account

/-- The second read: how many extrinsics of the account are pending, as a `u32`. -/
def pendingCount (account : Types.AccountId) : Exec NodeEvent (Node PeerId) U32 := do
  let self ← Exec.read
  return BitVec.ofNat 32 (self.mempool.pending.countP fun e => e.signer = account)

/-- `GET /nonce/<hex_pubkey>`. A sum that overflows panics in the dev profile; in a release build it
would wrap. -/
def nonceHandler (hexDecode : String → Except String Bytes) (hex : String) :
    Exec NodeEvent (Node PeerId) (Except (StatusCode × String) String) :=
  match hexDecode hex with
  | .error e => return .error (.badRequest, "invalid hex: " ++ e)
  | .ok bytes =>
      match account? bytes with
      | none => return .error (.badRequest, "account must be 32 bytes")
      | some account => do
        let base ← runtimeNonce account
        let pending ← pendingCount account
        let nonce ← Exec.unwrap "attempt to add with overflow" (checkedAdd base pending)
        return .ok (toString nonce.toNat)

/-- The value of a hexadecimal digit. -/
def hexValue (c : Char) : Option ℕ :=
  if '0' ≤ c ∧ c ≤ '9' then some (c.toNat - '0'.toNat)
  else if 'a' ≤ c ∧ c ≤ 'f' then some (c.toNat - 'a'.toNat + 10)
  else if 'A' ≤ c ∧ c ≤ 'F' then some (c.toNat - 'A'.toNat + 10)
  else none

/-- The bytes of pairs of hexadecimal digits. -/
def hexBytes : List Char → Option Bytes
  | [] => some []
  | [_] => none
  | high :: low :: cs => do
    let h ← hexValue high
    let l ← hexValue low
    let bytes ← hexBytes cs
    return UInt8.ofNat (16 * h + l) :: bytes

/-- A decoder for concrete runs: two digits a byte. -/
def plainHex (hex : String) : Except String Bytes :=
  match hexBytes hex.toList with
  | some bytes => .ok bytes
  | none => .error "Odd number of digits"

/-- How a client writes an account in a request. -/
def accountHex (account : Types.AccountId) : String :=
  String.ofList (account.bytes.toList.flatMap hexDigits)

/-- A request for an account is answered with the sum of both reads, or the handler panics. -/
theorem nonceHandler_of_account {hexDecode : String → Except String Bytes} {hex : String}
    {a : Types.AccountId} (hhex : hexDecode hex = .ok a.bytes.toList) (self : Node PeerId) :
    nonceHandler hexDecode hex self =
      match checkedAdd (self.runtime.system.nonce a) (BitVec.ofNat 32
        (Runtime.noncesOf a self.mempool.pending).length) with
      | some nonce => ⟨.ret (.ok (toString nonce.toNat)), self, []⟩
      | none => ⟨.panicked "attempt to add with overflow", self, []⟩ := by
  have hcount : (self.mempool.pending.countP fun e => e.signer = a) =
      (Runtime.noncesOf a self.mempool.pending).length := by
    rw [Runtime.noncesOf, List.length_map, List.countP_eq_length_filter]
  rw [← hcount, nonceHandler, hhex]
  dsimp only
  rw [account?_toList]
  cases hadd : checkedAdd (self.runtime.system.nonce a)
      (BitVec.ofNat 32 (self.mempool.pending.countP fun e => e.signer = a)) with
  | some nonce => simp [runtimeNonce, pendingCount, hadd]
  | none => simp [runtimeNonce, pendingCount, hadd]

end Rpc

/-! ## The next usable nonce -/

theorem toString_nat_inj {m n : ℕ} (h : toString m = toString n) : m = n := by
  have hdigits : Nat.toDigits 10 m = Nat.toDigits 10 n := String.ofList_injective h
  rw [← Nat.ofDigitChars_ten_toDigits (n := m), hdigits, Nat.ofDigitChars_ten_toDigits]

/-- The pending nonces are the next ones in some order, none stale, none twice, none behind a gap,
and the one after them exists. A count that wraps has to wrap to the length of the unbroken run. -/
def InSequence (n : ℕ) (ns : List ℕ) : Prop :=
  if ns.length < 2 ^ 32 then n + ns.length < 2 ^ 32 ∧ ns.Perm (List.range' n ns.length)
  else ∃ k, LongestRun n ns k ∧ n + k < 2 ^ 32 ∧ ns.length % 2 ^ 32 = k

theorem longestRun_iff_isLeast {n k : ℕ} {ns : List ℕ} :
    LongestRun n ns k ↔ IsLeast {m | n ≤ m ∧ m ∉ ns} (n + k) := by
  constructor
  · rintro ⟨hrun, hnext⟩
    refine ⟨⟨Nat.le_add_right n k, hnext⟩, ?_⟩
    rintro m ⟨hm, hfree⟩
    by_contra hlt
    exact hfree (hrun m hm (Nat.lt_of_not_le hlt))
  · rintro ⟨⟨-, hnext⟩, hleast⟩
    refine ⟨?_, hnext⟩
    intro v hv hlt
    by_contra hfree
    exact Nat.not_le_of_lt hlt (hleast ⟨hv, hfree⟩)

/-- As many numbers as the longest run has: the run itself, in some order. -/
theorem longestRun_length_iff {n : ℕ} {ns : List ℕ} :
    LongestRun n ns ns.length ↔ ns.Perm (List.range' n ns.length) := by
  constructor
  · rintro ⟨hrun, -⟩
    have hsub : List.range' n ns.length ⊆ ns := by
      intro v hv
      rw [List.mem_range'_1] at hv
      exact hrun v hv.1 hv.2
    refine ((List.subperm_of_subset List.nodup_range' hsub).perm_of_length_le ?_).symm
    rw [List.length_range']
  · intro hperm
    constructor
    · intro v hv hlt
      rw [hperm.mem_iff, List.mem_range'_1]
      exact ⟨hv, hlt⟩
    · rw [hperm.mem_iff, List.mem_range'_1]
      omega

namespace Rpc

variable {PeerId : Type}

/-- The answer to a nonce request is the smallest nonce, from the runtime nonce on, that no pending
extrinsic of the account carries, exactly when the pending ones are in step with the runtime. -/
theorem nonceHandler_next_usable_iff {hexDecode : String → Except String Bytes} {hex : String}
    {a : Types.AccountId} (hhex : hexDecode hex = .ok a.bytes.toList) (self : Node PeerId) :
    (∃ n, IsLeast {m | (self.runtime.system.nonce a).toNat ≤ m ∧
          m ∉ Runtime.noncesOf a self.mempool.pending} n ∧
        nonceHandler hexDecode hex self = ⟨.ret (.ok (toString n)), self, []⟩) ↔
      InSequence (self.runtime.system.nonce a).toNat
        (Runtime.noncesOf a self.mempool.pending) := by
  rw [nonceHandler_of_account hhex]
  generalize Runtime.noncesOf a self.mempool.pending = ns
  generalize self.runtime.system.nonce a = base
  have hcount : (BitVec.ofNat 32 ns.length).toNat = ns.length % 2 ^ 32 := BitVec.toNat_ofNat _ _
  have hstep : InSequence base.toNat ns ↔ LongestRun base.toNat ns (ns.length % 2 ^ 32) ∧
      base.toNat + ns.length % 2 ^ 32 < 2 ^ 32 := by
    rw [InSequence]
    split_ifs with hlen
    · rw [Nat.mod_eq_of_lt hlen, longestRun_length_iff]
      exact And.comm
    · constructor
      · rintro ⟨k, hrun, hroom, rfl⟩
        exact ⟨hrun, hroom⟩
      · rintro ⟨hrun, hroom⟩
        exact ⟨_, hrun, hroom, rfl⟩
  rw [hstep, longestRun_iff_isLeast]
  cases hadd : checkedAdd base (BitVec.ofNat 32 ns.length) with
  | none =>
      have htop := Machine.checkedAdd_eq_none.mp hadd
      rw [hcount] at htop
      constructor
      · rintro ⟨n, -, hrun⟩
        cases congrArg Run.outcome hrun
      · rintro ⟨-, hroom⟩
        omega
  | some nonce =>
      have hsum := Machine.checkedAdd_eq_some.mp hadd
      rw [hcount] at hsum
      have hlt := nonce.isLt
      constructor
      · rintro ⟨n, hleast, hrun⟩
        have hsame : nonce.toNat = n := by
          have hout := congrArg Run.outcome hrun
          dsimp only at hout
          exact toString_nat_inj (Except.ok.inj (Outcome.ret.inj hout))
        rw [← hsum]
        exact ⟨hsame ▸ hleast, hlt⟩
      · rintro ⟨hleast, -⟩
        rw [← hsum] at hleast
        exact ⟨_, hleast, rfl⟩

theorem plainHex_alice :
    let a := @AccountKeyring.publicKey .transparent .alice
    plainHex (accountHex a) = .ok a.bytes.toList := by
  decide +kernel

/-- Two pending payments in the wrong order of arrival are answered with the nonce after them. -/
theorem nonceHandler_next_usable_paymentsNode :
    let a := @AccountKeyring.publicKey .transparent .alice
    let node := paymentsNode [1, 0]
    plainHex (accountHex a) = .ok a.bytes.toList ∧
      ∃ n, IsLeast {m | (node.runtime.system.nonce a).toNat ≤ m ∧
          m ∉ Runtime.noncesOf a node.mempool.pending} n ∧
        nonceHandler plainHex (accountHex a) node = ⟨.ret (.ok (toString n)), node, []⟩ := by
  refine ⟨plainHex_alice, (nonceHandler_next_usable_iff plainHex_alice _).mpr ?_⟩
  have hns : Runtime.noncesOf (@AccountKeyring.publicKey .transparent .alice)
      (paymentsNode [1, 0]).mempool.pending = [1, 0] := by decide +kernel
  have hbase : ((paymentsNode [1, 0]).runtime.system.nonce
      (@AccountKeyring.publicKey .transparent .alice)).toNat = 0 := by decide +kernel
  rw [hns, hbase, InSequence, if_pos (by decide)]
  exact ⟨by decide, List.Perm.swap 0 1 []⟩

/-- A payment behind a gap is counted although the nonce before it is free. -/
theorem nonceHandler_counts_gap :
    let a := @AccountKeyring.publicKey .transparent .alice
    let node := paymentsNode [1]
    plainHex (accountHex a) = .ok a.bytes.toList ∧
      ¬ ∃ n, IsLeast {m | (node.runtime.system.nonce a).toNat ≤ m ∧
          m ∉ Runtime.noncesOf a node.mempool.pending} n ∧
        nonceHandler plainHex (accountHex a) node = ⟨.ret (.ok (toString n)), node, []⟩ := by
  refine ⟨plainHex_alice, ?_⟩
  rintro ⟨n, hleast, hrun⟩
  have hns : Runtime.noncesOf (@AccountKeyring.publicKey .transparent .alice)
      (paymentsNode [1]).mempool.pending = [1] := by decide +kernel
  have hbase : ((paymentsNode [1]).runtime.system.nonce
      (@AccountKeyring.publicKey .transparent .alice)).toNat = 0 := by decide +kernel
  rw [hns, hbase] at hleast
  have hzero : n = 0 := Nat.le_zero.mp (hleast.2 ⟨Nat.le_refl 0, by decide⟩)
  have hanswer : (nonceHandler plainHex
      (accountHex (@AccountKeyring.publicKey .transparent .alice)) (paymentsNode [1])).outcome =
        .ret (.ok "1") := by decide +kernel
  rw [hrun, hzero] at hanswer
  exact absurd hanswer (by decide +kernel)

end Rpc

end RustStateMachine
