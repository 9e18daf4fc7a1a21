import RustStateMachine.Cli
import RustStateMachine.Lib.Decimal
import RustStateMachine.Lib.Trace
import RustStateMachine.Orders
import RustStateMachine.Server

/-!
# Submissions to a node

With `--node` a command asks the node for the next nonce, signs its extrinsic
with it and posts it. Whatever is submitted so and however the node puts it into
blocks, it comes to what the same commands execute one by one on their own.

The HTTP client is outside the repository and enters as a parameter.
-/

namespace RustStateMachine

open Lib Lib.KeyValue Lib.Runs Lib.Swaps Std Support

open RustStateMachine.Runtime

/-! ## The HTTP client -/

/-- A response with its body, which may fail to be read. -/
structure Response where
  status : ℕ
  body : Except String String
deriving DecidableEq

/-- The body, or nothing where it cannot be read. -/
def Response.text (res : Response) : String :=
  match res.body with
  | .ok text => text
  | .error _ => ""

/-- A status from 400 on, or no response. -/
inductive HttpError where
  | status (code : ℕ) (res : Response)
  | transport (text : String)
deriving DecidableEq

/-- The requests a command makes, and how it prints an error of theirs. -/
structure Http (σ : Type) where
  get : String → Exec Event σ (Except HttpError Response)
  post : String → String → Bytes → Exec Event σ (Except HttpError Response)
  display : HttpError → String

namespace Rpc

/-- The number of a status code. -/
def StatusCode.asU16 : StatusCode → ℕ
  | .accepted => 202
  | .badRequest => 400

/-- What a client gets when a handler refuses a request. -/
def refused (e : StatusCode × String) : HttpError :=
  .status e.1.asU16 ⟨e.1.asU16, .ok e.2⟩

end Rpc

/-- The content type of a posted extrinsic. -/
def octetStream : String := "application/octet-stream"

/-- At the URL the two handlers of a node are reached, each without a step of the task in
between. -/
structure Serves {PeerId : Type} (http : Http (Server PeerId))
    (hexDecode : String → Except String Bytes) (url : String) : Prop where
  nonce : ∀ hex s res, (Rpc.nonceHandler hexDecode hex s.node).outcome = .ret res →
    http.get (url ++ "/nonce/" ++ hex) s =
      ⟨.ret ((res.map fun text => ⟨200, .ok text⟩).mapError Rpc.refused), s, []⟩
  submit : ∀ raw s res, (Server.submitHandler raw s).outcome = .ret res →
    http.post (url ++ "/submit") octetStream raw s =
      ⟨.ret ((res.map fun code => ⟨code.asU16, .ok ""⟩).mapError Rpc.refused),
        (Server.submitHandler raw s).state, []⟩

/-! ## Commands with `--node` -/

/-- What is submitted. -/
inductive Submission where
  | submitTransfer (sender recipient : String) (amount : Types.Balance)
  | submitClaim (account : String) (claim : Types.Content)
deriving DecidableEq

namespace Submission

variable {σ : Type} [Ed25519]

/-- The next nonce of an account, as the node answers. -/
def nextNonce (http : Http σ) (url : String) (signer : Types.AccountId) :
    Exec Event σ Types.Nonce := do
  let res ← http.get (url ++ "/nonce/" ++ Rpc.accountHex signer)
  match res with
  | .error e => Exec.panicWith ("failed to get nonce: " ++ http.display e)
  | .ok res =>
      match res.body with
      | .error e => Exec.panicWith ("called `Result::unwrap()` on an `Err` value: " ++ e)
      | .ok text =>
          match Decimal.fromStr 32 (Decimal.trim text.toList) with
          | .ok nonce => return nonce
          | .error kind => Exec.panicWith ("nonce must be a number: ParseIntError \x7b kind: " ++
              kind.debug ++ " \x7d")

/-- The extrinsic is signed with the nonce the node answers and posted. -/
def submit (http : Http σ) (url : String) (kr : AccountKeyring) (call : RuntimeCall) :
    Exec Event σ Unit := do
  let nonce ← nextNonce http url kr.publicKey
  let ext := UncheckedExtrinsic.newSigned kr.signingKey nonce call
  let res ← http.post (url ++ "/submit") octetStream (encode ext)
  match res with
  | .ok res => Exec.emit (.println ("Submitted (HTTP " ++ toString res.status ++ ")"))
  | .error (.status code res) => Exec.emit (.eprintln ("Server error " ++ toString code ++ ": " ++
      res.text))
  | .error e => Exec.emit (.eprintln ("Connection error: " ++ http.display e))

/-- A command with `--node`. -/
def run (http : Http σ) (url : String) : Submission → Exec Event σ Unit
  | .submitTransfer sender recipient amount => do
    let senderKr ← Exec.unwrap (Cli.unknownAccount sender) (AccountKeyring.fromName sender)
    let recipientKr ← Exec.unwrap (Cli.unknownAccount recipient) (AccountKeyring.fromName recipient)
    submit http url senderKr (.balances (.transfer recipientKr.publicKey amount))
  | .submitClaim account claim => do
    let kr ← Exec.unwrap (Cli.unknownAccount account) (AccountKeyring.fromName account)
    submit http url kr (.proofOfExistence (.createClaim claim))

/-- Who signs what, unless a name is unknown. -/
def call? : Submission → Option (AccountKeyring × RuntimeCall)
  | .submitTransfer sender recipient amount => do
    let senderKr ← AccountKeyring.fromName sender
    let recipientKr ← AccountKeyring.fromName recipient
    return (senderKr, .balances (.transfer recipientKr.publicKey amount))
  | .submitClaim account claim => do
    let kr ← AccountKeyring.fromName account
    return (kr, .proofOfExistence (.createClaim claim))

/-- A command with unknown names ends before it makes a request. -/
theorem run_of_none {sub : Submission} (h : sub.call? = none) (http : Http σ) (url : String)
    (s : σ) : ∃ m, run http url sub s = ⟨.panicked m, s, []⟩ := by
  cases sub with
  | submitTransfer sender recipient amount =>
      simp only [run, Exec.bind_apply]
      cases hsender : AccountKeyring.fromName sender with
      | none => exact ⟨_, rfl⟩
      | some senderKr =>
          cases hrecipient : AccountKeyring.fromName recipient with
          | none => exact ⟨_, rfl⟩
          | some recipientKr =>
              simp [call?, hsender, hrecipient] at h
  | submitClaim account claim =>
      simp only [run, Exec.bind_apply]
      cases haccount : AccountKeyring.fromName account with
      | none => exact ⟨_, rfl⟩
      | some kr => simp [call?, haccount] at h

theorem run_of_some {sub : Submission} {kr : AccountKeyring} {call : RuntimeCall}
    (h : sub.call? = some (kr, call)) (http : Http σ) (url : String) :
    run http url sub = submit http url kr call := by
  funext s
  cases sub with
  | submitTransfer sender recipient amount =>
      cases hsender : AccountKeyring.fromName sender with
      | none => simp [call?, hsender] at h
      | some senderKr =>
          cases hrecipient : AccountKeyring.fromName recipient with
          | none => simp [call?, hsender, hrecipient] at h
          | some recipientKr =>
              simp only [call?, hsender, hrecipient, Option.bind_eq_bind, Option.bind_some,
                Option.pure_def, Option.some.injEq, Prod.mk.injEq] at h
              obtain ⟨rfl, rfl⟩ := h
              simp [run, hsender, hrecipient]
  | submitClaim account claim =>
      cases haccount : AccountKeyring.fromName account with
      | none => simp [call?, haccount] at h
      | some kr' =>
          simp only [call?, haccount, Option.bind_eq_bind, Option.bind_some, Option.pure_def,
            Option.some.injEq, Prod.mk.injEq] at h
          obtain ⟨rfl, rfl⟩ := h
          simp [run, haccount]

end Submission

variable [Ed25519]

/-! ## One submission -/

section Served

variable {PeerId : Type} {http : Http (Server PeerId)} {hexDecode : String → Except String Bytes}
  {url : String}

omit [Ed25519] in
/-- A server that has no nonce to spare is asked for the next nonce. -/
theorem Submission.nextNonce_of_serves (hserves : Serves http hexDecode url)
    {a : Types.AccountId} (hhex : hexDecode (Rpc.accountHex a) = .ok a.bytes.toList)
    {s : Server PeerId} {nonce : Types.Nonce} (hnonce : nonce.toNat =
      (s.node.runtime.system.nonce a).toNat + (noncesOf a s.node.mempool.pending).length) :
    nextNonce http url a s = ⟨.ret nonce, s, []⟩ := by
  have hlt := nonce.isLt
  have hadd : checkedAdd (s.node.runtime.system.nonce a)
      (BitVec.ofNat 32 (noncesOf a s.node.mempool.pending).length) = some nonce := by
    rw [Machine.checkedAdd_eq_some, BitVec.toNat_ofNat, Nat.mod_eq_of_lt (by omega), hnonce]
  have hanswer := Rpc.nonceHandler_of_account hhex s.node
  rw [hadd] at hanswer
  have hget := hserves.nonce (Rpc.accountHex a) s (.ok (toString nonce.toNat)) (by rw [hanswer])
  have hread := Decimal.fromStr_trim_toString nonce
  rw [nextNonce, Exec.bind_apply, hget, Run.andThen_ret]
  simp only [Except.map, Except.mapError, hread, Exec.pure_apply, Run.prepend_nil]

/-- The extrinsic is sent to the task with that nonce. -/
theorem Submission.submit_of_serves (hserves : Serves http hexDecode url) {kr : AccountKeyring}
    (hhex : hexDecode (Rpc.accountHex kr.publicKey) = .ok kr.publicKey.bytes.toList)
    {s : Server PeerId} {nonce : Types.Nonce} (hnonce : nonce.toNat =
      (s.node.runtime.system.nonce kr.publicKey).toNat +
        (noncesOf kr.publicKey s.node.mempool.pending).length) (call : RuntimeCall) :
    submit http url kr call s =
      ⟨.ret (), s.send (UncheckedExtrinsic.newSigned kr.signingKey nonce call),
        [.println "Submitted (HTTP 202)"]⟩ := by
  let ext := UncheckedExtrinsic.newSigned kr.signingKey nonce call
  have hhandler := Server.submitHandler_encode ext s
  have hpost := hserves.submit (encode ext) s (.ok .accepted) (by rw [hhandler])
  rw [submit, Exec.bind_apply, nextNonce_of_serves hserves hhex hnonce, Run.andThen_ret,
    Run.prepend_nil, Exec.bind_apply, hpost, hhandler]
  rfl

end Served

/-! ## Local submissions -/

namespace Submission

/-- What a local submission executes, without the funding of a transfer. -/
def locally (self : Submission) (rt : Runtime) : Runtime :=
  match self.call? with
  | some (kr, call) => (Cli.executeLocally kr call rt).state
  | none => rt

/-- The extrinsics that some local submissions sign, one after the other. -/
def signedLocally : List Submission → Runtime → List Types.Extrinsic
  | [], _ => []
  | sub :: subs, rt =>
      match sub.call? with
      | some (kr, call) =>
          UncheckedExtrinsic.newSigned kr.signingKey (rt.system.nonce kr.publicKey) call ::
            signedLocally subs (sub.locally rt)
      | none => signedLocally subs rt

theorem signedLocally_cons (sub : Submission) (subs : List Submission) (rt : Runtime) :
    signedLocally (sub :: subs) rt =
      signedLocally [sub] rt ++ signedLocally subs (sub.locally rt) := by
  cases hcall : sub.call? with
  | some signed => simp only [signedLocally, hcall, List.singleton_append]
  | none => simp only [signedLocally, locally, hcall, List.nil_append]

/-- What the first submissions sign comes first. -/
theorem signedLocally_append (subs more : List Submission) (rt : Runtime) :
    signedLocally (subs ++ more) rt = signedLocally subs rt ++
      signedLocally more (subs.foldl (fun rt sub => sub.locally rt) rt) := by
  induction subs generalizing rt with
  | nil => rfl
  | cons sub subs ih =>
      rw [List.cons_append, signedLocally_cons, ih, signedLocally_cons sub subs,
        List.append_assoc]
      rfl

end Submission

/-- Spending a nonce counts it. -/
theorem Runtime.nonce_afterExtrinsic {ext : Types.Extrinsic} {rt : Runtime} (hacc : Accepted ext rt)
    (hmax : ext.nonce ≠ BitVec.allOnes 32) (a : Types.AccountId) :
    ((afterExtrinsic ext rt).system.nonce a).toNat =
      (rt.system.nonce a).toNat + if ext.signer = a then 1 else 0 := by
  by_cases ha : ext.signer = a
  · obtain ⟨m, hm⟩ := exists_next_nonce hmax
    have hread : (afterExtrinsic ext rt).system.nonce a = m := by
      rw [afterExtrinsic, Machine.checkedAdd_one_eq_some.mpr hm]
      dsimp only
      rw [if_pos hacc]
      exact (setNonce_nonce rt ext.signer a m).trans (if_pos ha)
    rw [hread, hm, if_pos ha, ← ha, hacc.2]
  · rw [nonce_afterExtrinsic_of_ne ha, if_neg ha, Nat.add_zero]

/-- A local submission is its extrinsic in the next block. -/
theorem Cli.executeLocally_eq {rt : Runtime} {kr : AccountKeyring} {call : RuntimeCall}
    {n : Types.BlockNumber} (hn : n.toNat = rt.height + 1)
    (hmax : rt.system.nonce kr.publicKey ≠ BitVec.allOnes 32) :
    (executeLocally kr call rt).state = (afterExtrinsic (UncheckedExtrinsic.newSigned kr.signingKey
      (rt.system.nonce kr.publicKey) call) rt).setBlockNumber n := by
  let ext := UncheckedExtrinsic.newSigned kr.signingKey (rt.system.nonce kr.publicKey) call
  have hall : ∀ e ∈ [ext], e.nonce ≠ BitVec.allOnes 32 := List.forall_mem_singleton.mpr hmax
  rw [executeLocally_of_next hn]
  exact (@executeBlock_eq_afterAll _ ⟨⟨n⟩, [ext]⟩ rt hn hall).2

/-! ## Rounds -/

/-- A command runs against the node and the task receives what it has sent before anything else
happens, or the node produces a block without a step in between. -/
inductive Round where
  | command (sub : Submission)
  | produce (order : HashOrder)

section Rounds

variable {PeerId : Type}

/-- What the command of a round submits. -/
def Round.submission? : Round → Option Submission
  | command sub => some sub
  | produce _ => none

/-- The server after a round. -/
def Round.run (http : Http (Server PeerId)) (url : String) :
    Round → Server PeerId → Server PeerId
  | command sub, s => (sub.run http url s).state.receive
  | produce order, s => (s.drain.select order).execute

/-- The node has executed some of the extrinsics and holds the others in its pool, those of each
account in their order, and each account's next nonce is that of the runtime `loc`. -/
structure Mirrors (start loc : Runtime) (exts : List Types.Extrinsic) (s : Server PeerId) :
    Prop where
  idle : s.task = .idle
  channel : s.channel = []
  tracks : ∀ a, Server.Tracks a (loc.system.nonce a).toNat s
  executed : ∃ done n, s.node.runtime = (afterAll done start).setBlockNumber n ∧
    ∀ a, ((done ++ s.node.mempool.pending).filter fun e => e.signer = a) =
      exts.filter fun e => e.signer = a
  bounded : ∀ e ∈ exts, e.nonce ≠ BitVec.allOnes 32
  locally : ∃ n, loc = (afterAll exts start).setBlockNumber n

namespace Mirrors

variable {start loc : Runtime} {exts : List Types.Extrinsic} {s : Server PeerId}

/-- A node at rest. -/
theorem refl (hidle : s.task = .idle) (hchannel : s.channel = [])
    (hpool : s.node.mempool.pending = []) (hcapacity : s.node.mempool.maxCapacity = none) :
    Mirrors s.node.runtime s.node.runtime [] s where
  idle := hidle
  channel := hchannel
  tracks a := by
    have hnone : s.outstanding = [] := by
      simp only [Server.outstanding, Server.held, Server.staying, hidle, hchannel, hpool,
        List.append_nil]
    refine ⟨?_, ?_, le_rfl, ?_, hcapacity, fun _ => hchannel⟩
    · rw [hnone]
      exact List.forall_mem_nil _
    · rw [hnone, Nat.sub_self]
      rfl
    · rw [hidle]
      intro batch hbatch
      cases hbatch
  executed := by
    refine ⟨[], s.node.runtime.system.blockNumber, rfl, ?_⟩
    rw [hpool]
    exact fun a => rfl
  bounded := List.forall_mem_nil _
  locally := ⟨s.node.runtime.system.blockNumber, rfl⟩

theorem pending_subset (h : Mirrors start loc exts s) : s.node.mempool.pending ⊆ exts := by
  obtain ⟨done, n, -, hsame⟩ := h.executed
  intro e he
  have hmem : e ∈ (done ++ s.node.mempool.pending).filter fun x => x.signer = e.signer :=
    List.mem_filter.mpr ⟨List.mem_append_right done he, decide_eq_true rfl⟩
  rw [hsame e.signer] at hmem
  exact (List.mem_filter.mp hmem).1

/-- The node counts the pending extrinsics on top of its runtime. -/
theorem nonce_eq (h : Mirrors start loc exts s) (a : Types.AccountId) :
    (loc.system.nonce a).toNat = (s.node.runtime.system.nonce a).toNat +
      (noncesOf a s.node.mempool.pending).length := by
  have hnonces := (h.tracks a).nonces
  have hle := (h.tracks a).nonce_le
  have hflight : s.outstanding = s.node.mempool.pending := by
    simp only [Server.outstanding, Server.held, Server.staying, h.idle, h.channel, List.append_nil,
      List.nil_append]
  rw [hflight] at hnonces
  rw [hnonces, List.length_range']
  omega

/-- What the task receives of a command waits in the pool. -/
theorem receive_send (h : Mirrors start loc exts s) (ext : Types.Extrinsic) :
    (s.send ext).receive = { s with
      node := { s.node with
        mempool := { s.node.mempool with pending := s.node.mempool.pending ++ [ext] } } } := by
  obtain ⟨node, channel, task⟩ := s
  obtain rfl : task = .idle := h.idle
  obtain rfl : channel = [] := h.channel
  have hcapacity : node.mempool.maxCapacity = none := (h.tracks ext.signer).unbounded
  have hsubmit : (node.mempool.submit ext).2 =
      { node.mempool with pending := node.mempool.pending ++ [ext] } := by
    simp only [Mempool.submit, hcapacity]
  simp only [Server.send, Server.receive, List.nil_append, Node.receiveExtrinsic,
    Exec.modify_apply, hsubmit]

/-- A submitted extrinsic with the next nonce of its signer. -/
theorem send (h : Mirrors start loc exts s) {ext : Types.Extrinsic} (hacc : Accepted ext loc)
    (hmax : ext.nonce ≠ BitVec.allOnes 32) (n : Types.BlockNumber) :
    Mirrors start ((afterExtrinsic ext loc).setBlockNumber n) (exts ++ [ext])
      (s.send ext).receive where
  idle := by
    rw [h.receive_send]
    exact h.idle
  channel := by
    rw [h.receive_send]
    exact h.channel
  tracks a := by
    rw [setBlockNumber_nonce, nonce_afterExtrinsic hacc hmax]
    by_cases ha : ext.signer = a
    · have hnonce : ext.nonce.toNat = (loc.system.nonce a).toNat := by rw [← ha, hacc.2]
      rw [if_pos ha]
      exact ((h.tracks a).send ha hnonce hacc.1).receive
    · rw [if_neg ha]
      exact ((h.tracks a).send_other ha).receive
  executed := by
    obtain ⟨done, m, hruntime, hsame⟩ := h.executed
    refine ⟨done, m, ?_, fun a => ?_⟩
    · rw [h.receive_send]
      exact hruntime
    · rw [h.receive_send]
      dsimp only
      rw [← List.append_assoc, List.filter_append, hsame a, List.filter_append]
  bounded := List.forall_mem_append.mpr ⟨h.bounded, List.forall_mem_singleton.mpr hmax⟩
  locally := by
    obtain ⟨m, hloc⟩ := h.locally
    refine ⟨n, ?_⟩
    rw [hloc, afterExtrinsic_setBlockNumber, afterAll_append]
    rfl

/-- A produced block executes extrinsics that were pending, those of each signer in their order. -/
theorem produce (h : Mirrors start loc exts s) (order : HashOrder)
    (hroom : s.node.runtime.height + 1 < 2 ^ 32) :
    Mirrors start loc exts (s.drain.select order).execute ∧
      (s.drain.select order).execute.node.runtime.height = s.node.runtime.height + 1 := by
  obtain ⟨done, m, hruntime, hsame⟩ := h.executed
  let batch := selected order s.node.runtime.system.nonce s.node.candidates
  have hdrain : s.drain = ⟨s.node.drained, s.channel, .drained s.node.candidates⟩ :=
    Server.drain_of_idle h.idle
  have hcandidates : s.node.candidates ⊆ exts :=
    fun e he => h.pending_subset (List.mem_of_mem_take he)
  have hbatch : ∀ e ∈ batch, e.nonce ≠ BitVec.allOnes 32 := by
    intro e he
    have hpicked := selected_subperm order s.node.runtime.system.nonce s.node.candidates
    exact h.bounded e (hcandidates (hpicked.subset he))
  have hselect : s.drain.select order = ⟨s.node.drained, s.channel, .selected batch⟩ := by
    rw [Server.select_of_drained order (by rw [hdrain]), hdrain]
    exact if_pos hbatch
  obtain ⟨n, hn⟩ := Cli.exists_next hroom
  obtain ⟨rt, log, hexec⟩ := executeBlock_ok ⟨⟨n⟩, batch⟩ s.node.runtime hn hbatch
  have hstate := (@executeBlock_eq_afterAll _ ⟨⟨n⟩, batch⟩ s.node.runtime hn hbatch).2
  rw [hexec] at hstate
  have hrun : (s.drain.select order).execute =
      ⟨{ s.node.drained with runtime := rt }, s.channel, .idle⟩ := by
    rw [hselect]
    exact Server.execute_of_next rfl hn hexec
  have htracks : ∀ a, Server.Tracks a (loc.system.nonce a).toNat (s.drain.select order).execute :=
    fun a => ((h.tracks a).drain.select order).execute.1
  rw [hrun] at htracks ⊢
  refine ⟨⟨rfl, h.channel, htracks, ⟨done ++ batch, n, ?_, ?_⟩, h.bounded, h.locally⟩, ?_⟩
  · dsimp only at hstate ⊢
    rw [hstate, hruntime, afterAll_setBlockNumber, afterAll_append]
    rfl
  · intro a
    have hrunning : ¬ s.drain.task.Panicked :=
      Task.not_panicked_of_eq (congrArg Server.task hdrain) id
    have hheld := ((h.tracks a).drain.noncesOf_held hrunning).1
    rw [hdrain] at hheld
    have hpicked := selected_filter_of_range order s.node.runtime.system.nonce s.node.candidates
      hheld
    have hall : s.node.candidates ++ s.node.drained.mempool.pending = s.node.mempool.pending :=
      List.take_append_drop _ _
    rw [← hsame a, ← hall]
    simp only [List.filter_append, List.append_assoc]
    rw [hpicked]
  · dsimp only at hstate ⊢
    rw [hstate]
    exact hn

/-- A task that has nothing to receive stays as it is. -/
theorem receive_eq (h : Mirrors start loc exts s) : s.receive = s := by
  simp only [Server.receive, h.idle, h.channel]

variable {http : Http (Server PeerId)} {hexDecode : String → Except String Bytes} {url : String}

/-- A command mirrors the local submission. -/
theorem command (h : Mirrors start loc exts s) (hserves : Serves http hexDecode url)
    (hhex : ∀ kr : AccountKeyring,
      hexDecode (Rpc.accountHex kr.publicKey) = .ok kr.publicKey.bytes.toList)
    (hkey : ∀ kr : AccountKeyring,
      Ed25519.isVerifyingKey (Ed25519.verifyingKey kr.signingKey) = true)
    (hsign : ∀ (kr : AccountKeyring) (message : Bytes), Ed25519.verifies
      (Ed25519.verifyingKey kr.signingKey) message (Ed25519.sign kr.signingKey message) = true)
    {sub : Submission} (hmax : ∀ e ∈ Submission.signedLocally [sub] loc,
      e.nonce ≠ BitVec.allOnes 32) (hroom : loc.height + 1 < 2 ^ 32) :
    Mirrors start (sub.locally loc) (exts ++ Submission.signedLocally [sub] loc)
        (Round.run http url (.command sub) s) ∧
      (Round.run http url (.command sub) s).node.runtime = s.node.runtime ∧
      (sub.locally loc).height ≤ loc.height + 1 := by
  cases hcall : sub.call? with
  | none =>
      obtain ⟨m, hrun⟩ := Submission.run_of_none hcall http url s
      have hend : Round.run http url (.command sub) s = s := by
        rw [Round.run, hrun]
        exact h.receive_eq
      simp only [Submission.signedLocally, Submission.locally, hcall, List.append_nil, hend]
      exact ⟨h, trivial, Nat.le_succ _⟩
  | some signed =>
      obtain ⟨kr, call⟩ := signed
      let ext := UncheckedExtrinsic.newSigned kr.signingKey (loc.system.nonce kr.publicKey) call
      have hone : Submission.signedLocally [sub] loc = [ext] := by
        simp only [Submission.signedLocally, hcall]
        rfl
      have hbelow : loc.system.nonce kr.publicKey ≠ BitVec.allOnes 32 := by
        rw [hone] at hmax
        exact hmax ext (List.mem_singleton_self ext)
      have hacc : Accepted ext loc :=
        ⟨UncheckedExtrinsic.verify_newSigned (hkey kr) (hsign kr) _ call, rfl⟩
      obtain ⟨n, hn⟩ := Cli.exists_next hroom
      have hlocal : sub.locally loc = (afterExtrinsic ext loc).setBlockNumber n := by
        simp only [Submission.locally, hcall]
        exact Cli.executeLocally_eq hn hbelow
      have hend : Round.run http url (.command sub) s = (s.send ext).receive := by
        rw [Round.run, Submission.run_of_some hcall,
          Submission.submit_of_serves hserves (hhex kr) (h.nonce_eq kr.publicKey) call]
      rw [hone, hlocal, hend]
      exact ⟨h.send hacc hbelow n, by rw [Server.receive_runtime, Server.send_node], hn.le⟩

theorem run (hserves : Serves http hexDecode url)
    (hhex : ∀ kr : AccountKeyring,
      hexDecode (Rpc.accountHex kr.publicKey) = .ok kr.publicKey.bytes.toList)
    (hkey : ∀ kr : AccountKeyring,
      Ed25519.isVerifyingKey (Ed25519.verifyingKey kr.signingKey) = true)
    (hsign : ∀ (kr : AccountKeyring) (message : Bytes), Ed25519.verifies
      (Ed25519.verifyingKey kr.signingKey) message (Ed25519.sign kr.signingKey message) = true)
    (rounds : List Round) {s : Server PeerId} {loc : Runtime} {exts : List Types.Extrinsic}
    (h : Mirrors start loc exts s)
    (hmax : ∀ e ∈ Submission.signedLocally (rounds.filterMap Round.submission?) loc,
      e.nonce ≠ BitVec.allOnes 32)
    (hroom : s.node.runtime.height + rounds.length < 2 ^ 32)
    (hroom' : loc.height + rounds.length < 2 ^ 32) :
    Mirrors start
      ((rounds.filterMap Round.submission?).foldl (fun rt sub => sub.locally rt) loc)
      (exts ++ Submission.signedLocally (rounds.filterMap Round.submission?) loc)
      (Trace.run (Round.run http url) rounds s) := by
  induction rounds generalizing s loc exts with
  | nil =>
      rw [List.filterMap_nil, Submission.signedLocally, List.append_nil]
      exact h
  | cons round rounds ih =>
      rw [List.length_cons] at hroom hroom'
      cases round with
      | produce order =>
          obtain ⟨hnext, hheight⟩ := h.produce order (by omega)
          have hroom'' : (s.drain.select order).execute.node.runtime.height + rounds.length <
              2 ^ 32 := by
            rw [hheight]
            omega
          exact ih hnext hmax hroom'' (by omega)
      | command sub =>
          have hsigned : Submission.signedLocally ((Round.command sub :: rounds).filterMap
              Round.submission?) loc = Submission.signedLocally [sub] loc ++
                Submission.signedLocally (rounds.filterMap Round.submission?) (sub.locally loc) :=
            Submission.signedLocally_cons sub _ loc
          rw [hsigned, List.forall_mem_append] at hmax
          obtain ⟨hnext, hruntime, hheight⟩ :=
            h.command hserves hhex hkey hsign hmax.1 (by omega)
          have hroom'' : (Round.run http url (.command sub) s).node.runtime.height +
              rounds.length < 2 ^ 32 := by
            rw [hruntime]
            omega
          have hlocal : (sub.locally loc).height + rounds.length < 2 ^ 32 := by omega
          rw [hsigned, ← List.append_assoc]
          exact ih hnext hmax.2 hroom'' hlocal

end Mirrors

/-- Commands sent to a node at rest, in any number and with productions anywhere in between, the
task receiving what a command posts before the next round: every command is answered the nonce of
the local run, and once the node has executed what is pending, it has the balances, claims and
nonces that the same commands leave on its runtime when they are executed locally one after the
other. Extrinsics of different signers do not get in each other's way, neither heights nor nonces
run out, and the supply with all the signers pay themselves stays below `2 ^ 128`. -/
theorem remote_is_local {http : Http (Server PeerId)} {hexDecode : String → Except String Bytes}
    {url : String} (hserves : Serves http hexDecode url)
    (hhex : ∀ kr : AccountKeyring,
      hexDecode (Rpc.accountHex kr.publicKey) = .ok kr.publicKey.bytes.toList)
    (hkey : ∀ kr : AccountKeyring,
      Ed25519.isVerifyingKey (Ed25519.verifyingKey kr.signingKey) = true)
    (hsign : ∀ (kr : AccountKeyring) (message : Bytes), Ed25519.verifies
      (Ed25519.verifyingKey kr.signingKey) message (Ed25519.sign kr.signingKey message) = true)
    {s : Server PeerId} (hidle : s.task = .idle) (hchannel : s.channel = [])
    (hpool : s.node.mempool.pending = []) (hcapacity : s.node.mempool.maxCapacity = none)
    (rounds : List Round) (hroom : s.node.runtime.height + rounds.length < 2 ^ 32)
    (hmax : ∀ e ∈ Submission.signedLocally (rounds.filterMap Round.submission?) s.node.runtime,
      e.nonce ≠ BitVec.allOnes 32)
    (hunrelated : Unrelated
      (Submission.signedLocally (rounds.filterMap Round.submission?) s.node.runtime))
    (hsupply : supply s.node.runtime + selfPayments
      (Submission.signedLocally (rounds.filterMap Round.submission?) s.node.runtime) < 2 ^ 128) :
    let served := fun rounds => Trace.run (Round.run http url) rounds s
    let alone := fun rounds => (rounds.filterMap Round.submission?).foldl
      (fun rt sub => sub.locally rt) s.node.runtime
    let s' := served rounds
    let loc := alone rounds
    let rt := afterAll s'.node.mempool.pending s'.node.runtime
    (∀ pre sub kr call, pre ++ [.command sub] <+: rounds → sub.call? = some (kr, call) →
      Submission.nextNonce http url kr.publicKey (served pre) =
        ⟨.ret ((alone pre).system.nonce kr.publicKey), served pre, []⟩) ∧
    s'.task = .idle ∧ s'.channel = [] ∧ rt.system.nonceMap = loc.system.nonceMap ∧
      rt.balances = loc.balances ∧ rt.proofOfExistence = loc.proofOfExistence := by
  intro served alone s' loc rt
  have hstart := Mirrors.refl hidle hchannel hpool hcapacity
  have hmirrors : ∀ pre, pre <+: rounds → Mirrors s.node.runtime (alone pre)
      (Submission.signedLocally (pre.filterMap Round.submission?) s.node.runtime) (served pre) := by
    rintro pre ⟨rest, rfl⟩
    rw [List.filterMap_append, Submission.signedLocally_append] at hmax
    rw [List.length_append] at hroom
    have hroom' : s.node.runtime.height + pre.length < 2 ^ 32 := by omega
    exact hstart.run hserves hhex hkey hsign pre (List.forall_mem_append.mp hmax).1 hroom' hroom'
  have hend : Mirrors s.node.runtime loc
      (Submission.signedLocally (rounds.filterMap Round.submission?) s.node.runtime) s' :=
    hmirrors rounds List.prefix_rfl
  obtain ⟨done, n, hruntime, hsame⟩ := hend.executed
  obtain ⟨m, hloc⟩ := hend.locally
  have hrt : rt = (afterAll (Submission.signedLocally (rounds.filterMap Round.submission?)
      s.node.runtime) s.node.runtime).setBlockNumber n := by
    calc
      rt = afterAll s'.node.mempool.pending
          ((afterAll done s.node.runtime).setBlockNumber n) := by rw [← hruntime]
      _ = (afterAll (done ++ s'.node.mempool.pending) s.node.runtime).setBlockNumber n := by
        rw [afterAll_setBlockNumber, afterAll_append]
      _ = _ := by
        rw [afterAll_rearranged (fun a => (hsame a).symm) hunrelated hmax hsupply]
  refine ⟨?_, hend.idle, hend.channel, ?_⟩
  · intro pre sub kr call hpre hcall
    have hbefore := hmirrors pre ((List.prefix_append pre _).trans hpre)
    exact Submission.nextNonce_of_serves hserves (hhex kr) (hbefore.nonce_eq kr.publicKey)
  · rw [hrt, hloc]
    exact ⟨rfl, rfl, rfl⟩

end Rounds

/-! ## Some commands -/

/-- An HTTP client that reaches the handlers of the node at the URL. -/
def Http.direct {PeerId : Type} (hexDecode : String → Except String Bytes) (url : String) :
    Http (Server PeerId) where
  get target s :=
    let hex := String.ofList (target.toList.drop (url ++ "/nonce/").length)
    match (Rpc.nonceHandler hexDecode hex s.node).outcome with
    | .ret res => ⟨.ret ((res.map fun text => ⟨200, .ok text⟩).mapError Rpc.refused), s, []⟩
    | .panicked m => ⟨.ret (.error (.transport m)), s, []⟩
  post _ _ raw s :=
    match (Server.submitHandler raw s).outcome with
    | .ret res => ⟨.ret ((res.map fun code => ⟨code.asU16, .ok ""⟩).mapError Rpc.refused),
        (Server.submitHandler raw s).state, []⟩
    | .panicked m => ⟨.ret (.error (.transport m)), s, []⟩
  display
    | .status code _ => toString code
    | .transport text => text

omit [Ed25519] in
theorem Http.serves_direct {PeerId : Type} (hexDecode : String → Except String Bytes)
    (url : String) : Serves (Http.direct hexDecode url : Http (Server PeerId)) hexDecode url where
  nonce hex s res hres := by
    have hrest : String.ofList ((url ++ "/nonce/" ++ hex).toList.drop (url ++ "/nonce/").length) =
        hex := by
      rw [String.toList_append, ← String.length_toList, List.drop_left, String.ofList_toList]
    simp only [Http.direct, hrest, hres]
  submit raw s res hres := by
    simp only [Http.direct, hres]

/-- Whom an extrinsic pays. -/
def recipientOf (ext : Types.Extrinsic) : Option Types.AccountId :=
  match ext.call with
  | .balances (.transfer recipient _) => some recipient
  | .proofOfExistence _ => none

/-- Which content an extrinsic is about. -/
def contentOf (ext : Types.Extrinsic) : Option Types.Content :=
  match ext.call with
  | .balances _ => none
  | .proofOfExistence call => some call.content

omit [Ed25519] in
theorem recipientOf_eq_some {ext : Types.Extrinsic} {r : Types.AccountId} :
    recipientOf ext = some r ↔ ∃ amount, ext.call = .balances (.transfer r amount) := by
  rw [recipientOf]
  cases ext.call with
  | balances call =>
      obtain ⟨recipient, amount⟩ := call
      simp
  | proofOfExistence call => simp

omit [Ed25519] in
theorem contentOf_eq_some {ext : Types.Extrinsic} {content : Types.Content} :
    contentOf ext = some content ↔
      ∃ call, ext.call = .proofOfExistence call ∧ call.content = content := by
  rw [contentOf]
  cases ext.call with
  | balances call => simp
  | proofOfExistence call => simp

omit [Ed25519] in
theorem independent_iff {a b : Types.Extrinsic} : Independent a b ↔
    a.signer ≠ b.signer ∧ recipientOf a ≠ some b.signer ∧ recipientOf b ≠ some a.signer ∧
      (contentOf a = none ∨ contentOf a ≠ contentOf b) := by
  constructor
  · intro h
    refine ⟨h.signers, ?_, ?_, ?_⟩
    · intro heq
      obtain ⟨amount, hcall⟩ := recipientOf_eq_some.mp heq
      exact h.recipients _ amount hcall rfl
    · intro heq
      obtain ⟨amount, hcall⟩ := recipientOf_eq_some.mp heq
      exact h.recipients' _ amount hcall rfl
    · cases ha : contentOf a with
      | none => exact .inl rfl
      | some content =>
          right
          intro hb
          obtain ⟨c, hc, rfl⟩ := contentOf_eq_some.mp ha
          obtain ⟨d, hd, hsame⟩ := contentOf_eq_some.mp hb.symm
          exact h.contents c d hc hd hsame.symm
  · rintro ⟨hsigners, hrecipient, hrecipient', hcontents⟩
    refine ⟨hsigners, ?_, ?_, ?_⟩
    · rintro r amount hcall rfl
      exact hrecipient (recipientOf_eq_some.mpr ⟨amount, hcall⟩)
    · rintro r amount hcall rfl
      exact hrecipient' (recipientOf_eq_some.mpr ⟨amount, hcall⟩)
    · intro c d hc hd hsame
      have ha := contentOf_eq_some.mpr ⟨c, hc, rfl⟩
      have hb := contentOf_eq_some.mpr ⟨d, hd, rfl⟩
      rw [ha, hb, hsame] at hcontents
      rcases hcontents with hnone | hne
      · cases hnone
      · exact hne rfl

instance (a b : Types.Extrinsic) : Decidable (Independent a b) :=
  decidable_of_iff _ independent_iff.symm

instance (exts : List Types.Extrinsic) : Decidable (Unrelated exts) :=
  inferInstanceAs (Decidable (∀ a ∈ exts, ∀ b ∈ exts, a.signer ≠ b.signer → Independent a b))

/-- Alice pays Charlie twice and Bob claims a poem, with a block in between and one command with an
unknown name. -/
def poemRounds : List Round :=
  [.command (.submitTransfer "alice" "charlie" 30),
    .command (.submitClaim "Bob" ⟨"poem", by decide⟩), .produce .inserted,
    .command (.submitTransfer "ALICE" "charlie" 5), .command (.submitTransfer "dave" "charlie" 1)]

/-- A node right after genesis. -/
def genesisServer : Server ℕ :=
  ⟨⟨0, [0], @Cli.genesisState Ed25519.transparent, Mempool.withBlockLimit 3⟩, [], .idle⟩

omit [Ed25519] in
theorem remote_is_local_poemRounds :
    let := Ed25519.transparent
    let s := Trace.run (Round.run (Http.direct Rpc.plainHex "http://node") "http://node") poemRounds
      genesisServer
    (afterAll s.node.mempool.pending s.node.runtime).balances =
      ((poemRounds.filterMap Round.submission?).foldl (fun rt sub => sub.locally rt)
        genesisServer.node.runtime).balances := by
  intro scheme
  have hhex : ∀ kr : AccountKeyring,
      Rpc.plainHex (Rpc.accountHex kr.publicKey) = .ok kr.publicKey.bytes.toList := by
    intro kr
    cases kr with
    | alice => decide +kernel
    | bob => decide +kernel
    | charlie => decide +kernel
  have hlocal := remote_is_local (Http.serves_direct Rpc.plainHex "http://node") hhex
    (fun _ => rfl) (fun _ _ => beq_self_eq_true _) (s := genesisServer) rfl rfl rfl rfl poemRounds
    (by decide +kernel) (by decide +kernel) (by decide +kernel) (by decide +kernel)
  exact hlocal.2.2.2.2.1

end RustStateMachine
