import RustStateMachine.Runtime

/-!
# Claims across a restart

A successful creation persists the greatest live content, not the one just
claimed. A live content is in the store exactly when it was the greatest one
right after some creation since it was last claimed.
-/

namespace RustStateMachine.ProofOfExistence

open Lib Lib.KeyValue Std Support

/-- The pallet at the types of the runtime. -/
abbrev Claims := Pallet Types.AccountId Types.Content

/-- A call with its caller. -/
abbrev CallBy := Types.AccountId × Call Types.Content

/-- One call of a sequence, with the state it found and what it left. -/
abbrev CallStep := Exec.Step Write Claims CallBy DispatchResult

/-- A call by its caller. -/
def dispatchBy (c : CallBy) : Exec Write Claims DispatchResult := Pallet.dispatch c.1 c.2

/-- Calls by any callers, one after the other. -/
def runCalls (calls : List CallBy) : Exec Write Claims Unit := Exec.each dispatchBy calls

/-- The steps of a sequence of calls, the latest first. -/
def history (calls : List CallBy) (self : Claims) : List CallStep :=
  (Exec.steps dispatchBy calls self).reverse

/-- The call creates a claim, and `c` is the greatest live content afterwards. -/
def CreatesBelow (st : CallStep) (c : Types.Content) : Prop :=
  ∃ claim, st.input.2 = .createClaim claim ∧ st.before.claims[claim]? = none ∧
    (claim = c ∨ ∃ owner, st.before.claims[c]? = some owner) ∧ (compare claim c).isLE ∧
    ∀ live owner, st.before.claims[live]? = some owner → (compare live c).isLE

/-- Since it was last claimed, `c` was the greatest live content after some creation. -/
def Secured (c : Types.Content) : List CallStep → Prop
  | [] => False
  | st :: earlier =>
      CreatesBelow st c ∨ ((∃ owner, st.before.claims[c]? = some owner) ∧ Secured c earlier)

theorem encode_content_ne_nil (c : Types.Content) : encode c ≠ [] := by
  intro h
  have hread := decode_append c []
  rw [h] at hread
  cases hread

/-- The pallet built from an empty store. -/
def fresh : Claims := Pallet.new ∅

theorem fresh_eq : fresh = ⟨∅⟩ := rfl

theorem ne_of_live {self : Claims} {claim c : Types.Content} {owner : Types.AccountId}
    (hfree : self.claims[claim]? = none) (hlive : self.claims[c]? = some owner) :
    ¬ claim = c := by
  rintro rfl
  rw [hfree] at hlive
  cases hlive

/-- What a call does: nothing, an insertion that persists the greatest content, or a removal. -/
inductive CallEffect (caller : Types.AccountId) (self : Claims) :
    Call Types.Content → Run Write Claims DispatchResult → Prop
  | failed (call : Call Types.Content) (e : String)
      (h : ∀ claim, call = .createClaim claim → self.claims[claim]? ≠ none) :
      CallEffect caller self call ⟨.ret (.error e), self, []⟩
  | created {claim last : Types.Content} {owner : Types.AccountId}
      (h : self.claims[claim]? = none)
      (hlast : (self.claims.insert claim caller).keys.getLast? = some last)
      (howner : (self.claims.insert claim caller)[last]? = some owner) :
      CallEffect caller self (.createClaim claim)
        ⟨.ret (.ok ()), ⟨self.claims.insert claim caller⟩,
          [.put (prefixPoe ++ encode last) (encode owner)]⟩
  | revoked {claim : Types.Content} (h : self.claims[claim]? = some caller) :
      CallEffect caller self (.revokeClaim claim)
        ⟨.ret (.ok ()), ⟨self.claims.erase claim⟩, [.delete (prefixPoe ++ encode claim)]⟩

theorem dispatch_callEffect (caller : Types.AccountId) (call : Call Types.Content)
    (self : Claims) : CallEffect caller self call (Pallet.dispatch caller call self) := by
  cases call with
  | createClaim claim =>
      rw [Pallet.dispatch]
      cases h : self.claims[claim]? with
      | some owner =>
          rw [Pallet.createClaim_of_some h]
          refine .failed _ _ ?_
          rintro _ ⟨⟩ hnone
          rw [h] at hnone
          cases hnone
      | none =>
          obtain ⟨last, owner, hlast, howner, heq⟩ := Pallet.createClaim_of_none h caller
          rw [heq]
          exact .created h hlast howner
  | revokeClaim claim =>
      rw [Pallet.dispatch]
      cases h : self.claims[claim]? with
      | none =>
          rw [Pallet.revokeClaim_of_none h]
          exact .failed _ _ nofun
      | some owner =>
          by_cases hne : owner = caller
          · subst hne
            rw [Pallet.revokeClaim_of_owner h]
            exact .revoked h
          · rw [Pallet.revokeClaim_of_ne h hne]
            exact .failed _ _ nofun

/-- The key a creation persists is the greatest content after it. -/
theorem createsBelow_iff_last {caller : Types.AccountId} {self : Claims} {claim : Types.Content}
    (h : self.claims[claim]? = none) (r : Run Write Claims DispatchResult) (c : Types.Content) :
    CreatesBelow ⟨self, (caller, .createClaim claim), r⟩ c ↔
      (self.claims.insert claim caller).keys.getLast? = some c := by
  rw [OrderedMap.keys_getLast?_eq_some_iff]
  simp only [OrderedMap.getElem?_insert]
  constructor
  · rintro ⟨claim', hcall, hfree, hlive, hle, hall⟩
    cases hcall
    constructor
    · split_ifs with heq
      · exact ⟨caller, rfl⟩
      · exact hlive.resolve_left heq
    · intro k v hk
      split_ifs at hk with heq
      · exact heq ▸ hle
      · exact hall k v hk
  · rintro ⟨hlive, hall⟩
    refine ⟨claim, rfl, h, ?_, hall claim caller (if_pos rfl), ?_⟩
    · split_ifs at hlive with heq
      · exact .inl heq
      · exact .inr hlive
    · intro k v hk
      refine hall k v ?_
      rw [if_neg (ne_of_live h hk)]
      exact hk

/-- No call panics: both `expect`s of a creation are met. -/
theorem dispatchBy_returns (c : CallBy) (self : Claims) : (dispatchBy c self).outcome.Returns := by
  obtain ⟨caller, call⟩ := c
  have heff := dispatch_callEffect caller call self
  rw [dispatchBy]
  generalize Pallet.dispatch caller call self = r at heff ⊢
  cases heff with
  | failed => trivial
  | created => trivial
  | revoked => trivial

/-- One more call after a sequence. -/
theorem runCalls_concat (calls : List CallBy) (c : CallBy) (self : Claims) :
    let r := dispatchBy c (runCalls calls self).state
    runCalls (calls ++ [c]) self = ⟨.ret (), r.state, (runCalls calls self).log ++ r.log⟩ ∧
      history (calls ++ [c]) self = ⟨(runCalls calls self).state, c, r⟩ :: history calls self := by
  have hret : (runCalls calls self).outcome = .ret () :=
    Exec.each_returns dispatchBy (fun c _ => dispatchBy_returns c) self
  have hres := dispatchBy_returns c (runCalls calls self).state
  cases ho : (dispatchBy c (runCalls calls self).state).outcome with
  | ret res =>
      obtain ⟨hrun, hsteps⟩ := Exec.each_concat dispatchBy hret ho
      refine ⟨hrun, ?_⟩
      rw [history, hsteps, List.reverse_append]
      rfl
  | panicked m =>
      rw [ho] at hres
      exact absurd hres (Outcome.not_returns_panicked m)

/-- The store mirrors the live claims that are secured, and only these. -/
def StoresSecured (db : Entries) (self : Claims) (earlier : List CallStep) : Prop :=
  ∃ stored : ExtTreeMap Types.Content Types.AccountId,
    Mirrors prefixPoe db stored ∧
    ∀ (c : Types.Content) owner,
      stored[c]? = some owner ↔ self.claims[c]? = some owner ∧ Secured c earlier

/-- A step that secures nothing leaves a live content as it was. -/
theorem secured_cons_of_live {st : CallStep} {earlier : List CallStep} {c : Types.Content}
    {owner : Types.AccountId} (hnot : ¬ CreatesBelow st c)
    (hlive : st.before.claims[c]? = some owner) :
    Secured c (st :: earlier) ↔ Secured c earlier := by
  rw [Secured]
  constructor
  · intro hsec
    exact (hsec.resolve_left hnot).2
  · intro hsec
    exact .inr ⟨⟨owner, hlive⟩, hsec⟩

/-- One call keeps the store at the secured claims. -/
theorem StoresSecured.dispatch {db : Entries} {self : Claims} {earlier : List CallStep}
    (h : StoresSecured db self earlier) {caller : Types.AccountId} {call : Call Types.Content}
    {r : Run Write Claims DispatchResult} (heff : CallEffect caller self call r) :
    StoresSecured (replay db r.log) r.state (⟨self, (caller, call), r⟩ :: earlier) := by
  obtain ⟨stored, hmirrors, hstored⟩ := h
  cases heff with
  | failed call e hfail =>
      refine ⟨stored, hmirrors, ?_⟩
      intro c owner
      rw [hstored]
      apply and_congr_right
      intro hlive
      refine (secured_cons_of_live ?_ hlive).symm
      rintro ⟨claim, hcall, hfree, -⟩
      exact hfail claim hcall hfree
  | @created claim last o hfree hlast howner =>
      refine ⟨stored.insert last o, hmirrors.put last o, ?_⟩
      intro c owner
      have hbelow : CreatesBelow ⟨self, (caller, .createClaim claim), ⟨.ret (.ok ()),
          ⟨self.claims.insert claim caller⟩, [.put (prefixPoe ++ encode last) (encode o)]⟩⟩ c ↔
            last = c := by
        rw [createsBelow_iff_last hfree, hlast, Option.some.injEq]
      rw [OrderedMap.getElem?_insert]
      by_cases heq : last = c
      · -- the content whose entry is written
        subst heq
        rw [if_pos rfl, howner, Secured]
        simp only [hbelow, true_or, and_true]
      · rw [if_neg heq, hstored, OrderedMap.getElem?_insert]
        by_cases hclaim : claim = c
        · -- the content just claimed, of which nothing is written
          subst hclaim
          rw [hfree, Secured, hbelow]
          simp [heq, hfree]
        · rw [if_neg hclaim]
          apply and_congr_right
          intro hlive
          exact (secured_cons_of_live (mt hbelow.mp heq) hlive).symm
  | @revoked claim howner =>
      refine ⟨stored.erase claim, hmirrors.delete claim, ?_⟩
      intro c owner
      dsimp only
      rw [OrderedMap.getElem?_erase, OrderedMap.getElem?_erase]
      split_ifs with heq
      · simp
      · rw [hstored]
        apply and_congr_right
        intro hlive
        refine (secured_cons_of_live ?_ hlive).symm
        rintro ⟨claim', hcall, -⟩
        cases hcall

/-- After any calls the store mirrors the live claims that are secured, and only these. -/
theorem runCalls_storesSecured (calls : List CallBy) :
    StoresSecured (replay ∅ (runCalls calls fresh).log) (runCalls calls fresh).state
      (history calls fresh) := by
  induction calls using List.reverseRecOn with
  | nil =>
      refine ⟨∅, mirrors_empty prefixPoe, ?_⟩
      intro c owner
      simp [history, Secured, runCalls, fresh_eq]
  | append_singleton calls c ih =>
      obtain ⟨hrun, hhistory⟩ := runCalls_concat calls c fresh
      rw [hrun, hhistory, replay_append]
      exact ih.dispatch (dispatch_callEffect c.1 c.2 _)

/-- What a restart after these calls loads. -/
def rebuilt (calls : List CallBy) : Claims := Pallet.new (replay ∅ (runCalls calls fresh).log)

/-- What the process held in memory before the restart. -/
def inMemory (calls : List CallBy) : Claims := (runCalls calls fresh).state

/-- A restart loads the claims in memory exactly when every live content is secured. -/
theorem rebuilt_eq_iff (calls : List CallBy) :
    (rebuilt calls).claims = (inMemory calls).claims ↔
      ∀ (c : Types.Content) owner, (inMemory calls).claims[c]? = some owner →
        Secured c (history calls fresh) := by
  obtain ⟨stored, hmirrors, hstored⟩ := runCalls_storesSecured calls
  have hload : (rebuilt calls).claims = stored := hmirrors.loadMap_eq encode_content_ne_nil
  rw [hload]
  constructor
  · intro h c owner hlive
    rw [← h] at hlive
    exact ((hstored c owner).mp hlive).2
  · intro h
    apply ExtTreeMap.ext_getElem?
    intro c
    apply Option.ext
    intro owner
    rw [hstored c owner]
    constructor
    · exact And.left
    · intro hlive
      exact ⟨hlive, h c owner hlive⟩

/-- A creation that succeeds claims a content above every live one. -/
def Ascending (st : CallStep) : Prop :=
  ∀ claim, st.input.2 = .createClaim claim → st.before.claims[claim]? = none →
    ∀ (live : Types.Content) owner, st.before.claims[live]? = some owner →
      (compare live claim).isLE

theorem secured_of_ascending (calls : List CallBy) (h : ∀ st ∈ history calls fresh, Ascending st)
    {c : Types.Content} {owner : Types.AccountId}
    (hlive : (inMemory calls).claims[c]? = some owner) : Secured c (history calls fresh) := by
  induction calls using List.reverseRecOn generalizing owner with
  | nil => simp [inMemory, runCalls, fresh_eq] at hlive
  | append_singleton calls call ih =>
      obtain ⟨hrun, hhistory⟩ := runCalls_concat calls call fresh
      rw [hhistory, List.forall_mem_cons] at h
      obtain ⟨hlast, hearlier⟩ := h
      have ih := @ih hearlier
      rw [inMemory, hrun] at hlive
      rw [hhistory, Secured]
      rw [inMemory] at ih
      generalize (runCalls calls fresh).state = self at *
      obtain ⟨caller, call⟩ := call
      have heff := dispatch_callEffect caller call self
      rw [dispatchBy] at hlast hlive ⊢
      generalize Pallet.dispatch caller call self = r at *
      cases heff with
      | failed call e hfail => exact .inr ⟨⟨owner, hlive⟩, ih hlive⟩
      | @created claim last o hfree hkey howner =>
          dsimp only at hlive
          rw [OrderedMap.getElem?_insert] at hlive
          split_ifs at hlive with heq
          · subst heq
            exact .inl ⟨claim, rfl, hfree, .inl rfl, by simp [ReflCmp.compare_self],
              hlast claim rfl hfree⟩
          · exact .inr ⟨⟨owner, hlive⟩, ih hlive⟩
      | @revoked claim howner =>
          dsimp only at hlive
          rw [OrderedMap.getElem?_erase] at hlive
          split_ifs at hlive with heq
          exact .inr ⟨⟨owner, hlive⟩, ih hlive⟩

theorem ascending_of_secured (calls : List CallBy)
    (h : ∀ pre, pre <+: calls → ∀ (c : Types.Content) owner,
      (inMemory pre).claims[c]? = some owner → Secured c (history pre fresh)) :
    ∀ st ∈ history calls fresh, Ascending st := by
  induction calls using List.reverseRecOn with
  | nil => exact fun st hst => absurd hst List.not_mem_nil
  | append_singleton calls call ih =>
      have hall := h (calls ++ [call]) List.prefix_rfl
      obtain ⟨hrun, hhistory⟩ := runCalls_concat calls call fresh
      rw [hhistory, List.forall_mem_cons]
      refine ⟨?_, ih fun pre hpre => h pre (hpre.trans (List.prefix_append calls [call]))⟩
      rw [inMemory, hrun, hhistory] at hall
      generalize (runCalls calls fresh).state = self at hall ⊢
      obtain ⟨caller, call⟩ := call
      intro claim hcall hfree live owner hlive
      dsimp only at hcall hfree hlive
      subst hcall
      have heff := dispatch_callEffect caller (.createClaim claim) self
      have hin : (dispatchBy (caller, .createClaim claim) self).state.claims[claim]? =
          some caller := by
        rw [dispatchBy]
        generalize Pallet.dispatch caller (.createClaim claim) self = r at heff ⊢
        cases heff with
        | failed call e hfail => exact absurd hfree (hfail claim rfl)
        | created => simp
      rcases hall claim caller hin with ⟨claim', hcall', -, -, -, hmax⟩ | ⟨⟨o, hbefore⟩, -⟩
      · exact hmax live owner hlive
      · dsimp only at hbefore
        rw [hfree] at hbefore
        cases hbefore

/-- A restart loads the claims in memory exactly when every live content was the greatest one
after some creation since it was last claimed; it does so after every call of a sequence exactly
when every creation that succeeds claims a content above all live ones. -/
theorem claims_survive_restart_iff (calls : List CallBy) :
    ((rebuilt calls).claims = (inMemory calls).claims ↔
      ∀ (c : Types.Content) owner, (inMemory calls).claims[c]? = some owner →
        Secured c (history calls fresh)) ∧
    ((∀ pre, pre <+: calls → (rebuilt pre).claims = (inMemory pre).claims) ↔
      ∀ st ∈ history calls fresh, Ascending st) := by
  constructor
  · exact rebuilt_eq_iff calls
  · constructor
    · intro h
      exact ascending_of_secured calls fun pre hpre => (rebuilt_eq_iff pre).mp (h pre hpre)
    · rintro h pre ⟨rest, rfl⟩
      rw [rebuilt_eq_iff]
      intro c owner hlive
      apply secured_of_ascending pre _ hlive
      intro st hst
      apply h
      have hsteps := Exec.steps_prefix dispatchBy (List.prefix_append pre rest) fresh
      rw [history, List.mem_reverse] at hst ⊢
      exact hsteps.subset hst

/-- The content "b" is claimed before "a". -/
def claimsOutOfOrder : List CallBy :=
  let alice := @AccountKeyring.publicKey .transparent .alice
  [(alice, .createClaim ⟨"b", by decide⟩), (alice, .createClaim ⟨"a", by decide⟩)]

/-- After both calls "a" is live in memory and gone after a restart. -/
theorem rebuilt_claims_claimsOutOfOrder_ne :
    (rebuilt claimsOutOfOrder).getClaim ⟨"a", by decide⟩ ≠
      (inMemory claimsOutOfOrder).getClaim ⟨"a", by decide⟩ := by
  decide +kernel

end RustStateMachine.ProofOfExistence
