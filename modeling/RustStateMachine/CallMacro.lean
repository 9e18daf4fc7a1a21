import RustStateMachine.Balances
import RustStateMachine.ProofOfExistence

/-!
# The call macro

`#[macros::call]` reads the functions of an impl block and generates the enum
`Call` and its dispatch. It does not look at a function's visibility, and in the
generated arm a field named `caller` hides the caller.
-/

namespace RustStateMachine.CallMacro

open Lib Lib.KeyValue Std Support

/-! ## Impl blocks -/

/-- An identifier, as its text. -/
abbrev Ident := String

/-- A type, as its tokens. -/
abbrev Ty := List String

/-- The pattern of a parameter: a name, with or without `mut`, or anything else. -/
inductive Pat where
  | ident (name : Ident)
  | other
deriving DecidableEq

/-- A parameter: `self` in some form, or a pattern with its type. -/
inductive FnArg where
  | receiver
  | typed (pat : Pat) (ty : Ty)
deriving DecidableEq

/-- The name a parameter binds, if its pattern is one. -/
def FnArg.name? : FnArg → Option Ident
  | .typed (.ident name) _ => some name
  | _ => none

/-- The parameter of a field. -/
def FnArg.ofField (field : Ident × Ty) : FnArg := .typed (.ident field.1) field.2

/-- Nothing, `pub` with a restriction, or `pub`. -/
inductive Visibility where
  | inherited
  | restricted
  | pub
deriving DecidableEq

/-- A function of an impl block. The language lets no name be bound by two parameters. -/
structure ImplItemFn where
  name : Ident
  vis : Visibility
  inputs : List FnArg
  distinct : (inputs.filterMap FnArg.name?).Nodup

/-- An associated function, or an item of another kind. -/
inductive ImplItem where
  | fn (method : ImplItemFn)
  | other

/-- The function of an item that is one. -/
def ImplItem.fn? : ImplItem → Option ImplItemFn
  | fn method => some method
  | other => none

/-- The type of an impl block: a path, or anything else. -/
inductive SelfTy where
  | path (first : Ident) (rest : List Ident)
  | other

/-- An impl block. The language lets no two of its functions have one name. -/
structure ItemImpl where
  selfTy : SelfTy
  items : List ImplItem
  distinct : ((items.filterMap ImplItem.fn?).map ImplItemFn.name).Nodup

/-- The functions of an impl block. -/
def ItemImpl.fns (item : ItemImpl) : List ImplItemFn := item.items.filterMap ImplItem.fn?

/-- What the attribute is put on. -/
inductive Item where
  | impl (item : ItemImpl)
  | other

/-! ## Parsing -/

/-- How the macro stops: with a compile error or by panicking. -/
inductive Stop where
  | error (message : String)
  | panicked (message : String)
deriving DecidableEq

/-- One callable function, with its parameters after the caller. -/
structure CallVariantDef where
  name : Ident
  args : List (Ident × Ty)
deriving DecidableEq

/-- The pallet struct and its callable functions. -/
structure CallDef where
  palletStruct : Ident
  methods : List CallVariantDef
deriving DecidableEq

/-- The tokens of `T::AccountId`. -/
def accountIdTy : Ty := ["T", "::", "AccountId"]

/-- The parser's own message, which is combined with the second one, is left out. -/
def checkCallerArg (pat : Pat) (ty : Ty) : Except Stop Unit :=
  let checkTy : Except Stop Unit :=
    if ty = accountIdTy then .ok ()
    else .error (.error "Invalid type for second parameter: expected `caller: T::AccountId`")
  match pat with
  | .ident name =>
      if name ≠ "caller" ∧ name ≠ "_caller" then
        .error (.error "Invalid name for second parameter: expected `caller: T::AccountId`")
      else checkTy
  | .other => checkTy

/-- The name and the type of a parameter after the first two. -/
def parseArg : FnArg → Except Stop (Ident × Ty)
  | .typed (.ident name) ty => .ok (name, ty)
  | .typed .other _ => .error (.error "Invalid pallet::call, argument must be ident")
  | .receiver =>
      .error (.panicked "internal error: entered unreachable code: All args should be typed.")

/-- The body of the loop over the items, for a function. -/
def parseFn (method : ImplItemFn) : Except Stop CallVariantDef := do
  match method.inputs.head? with
  | some .receiver => pure ()
  | _ => throw (.error "Invalid call, first argument must be a variant of self")
  match (method.inputs.drop 1).head? with
  | some (.typed pat ty) => checkCallerArg pat ty
  | _ => throw (.error "Invalid call, second argument should be `caller: T::AccountId`")
  let args ← (method.inputs.drop 2).mapM parseArg
  return ⟨method.name, args⟩

/-- Items that are not functions are passed over. -/
def CallDef.tryFrom : Item → Except Stop CallDef
  | .other => .error (.error "Invalid pallet::call, expected item impl")
  | .impl item =>
      match item.selfTy with
      | .other => .error (.panicked "not supported tokens")
      | .path palletStruct _ => do
          let methods ← item.fns.mapM parseFn
          return ⟨palletStruct, methods⟩

/-- The names the second parameter may have; another pattern is not looked at. -/
def Pat.IsCaller : Pat → Prop
  | .ident name => name = "caller" ∨ name = "_caller"
  | .other => True

theorem checkCallerArg_eq_ok_iff {pat : Pat} {ty : Ty} {u : Unit} :
    checkCallerArg pat ty = .ok u ↔ pat.IsCaller ∧ ty = accountIdTy := by
  cases pat with
  | ident name =>
      rw [checkCallerArg, Pat.IsCaller]
      split_ifs with hname hty
      · exact iff_of_false (fun h => nomatch h) fun h => h.1.elim hname.1 hname.2
      · exact iff_of_true rfl ⟨by tauto, hty⟩
      · exact iff_of_false (fun h => nomatch h) fun h => hty h.2
  | other =>
      rw [checkCallerArg, Pat.IsCaller]
      split_ifs with hty
      · exact iff_of_true rfl ⟨trivial, hty⟩
      · exact iff_of_false (fun h => nomatch h) fun h => hty h.2

theorem parseArg_eq_ok_iff {input : FnArg} {arg : Ident × Ty} :
    parseArg input = .ok arg ↔ input = .ofField arg := by
  obtain ⟨name, ty⟩ := arg
  cases input with
  | receiver => exact iff_of_false (fun h => nomatch h) fun h => nomatch h
  | typed pat ty' =>
      cases pat with
      | other => exact iff_of_false (fun h => nomatch h) fun h => nomatch h
      | ident name' => simp [parseArg, FnArg.ofField]

section Loops

variable {α β ε : Type}

theorem bind_eq_ok_iff {x : Except ε α} {f : α → Except ε β} {b : β} :
    (x >>= f) = .ok b ↔ ∃ a, x = .ok a ∧ f a = .ok b := by
  cases x with
  | error e =>
      refine iff_of_false (fun h => nomatch h) ?_
      rintro ⟨_, h, -⟩
      cases h
  | ok a =>
      constructor
      · exact fun h => ⟨a, rfl, h⟩
      · rintro ⟨_, ⟨⟩, h⟩
        exact h

/-- A loop that collects results returns exactly if every step does. -/
theorem mapM_eq_ok_iff {f : α → Except ε β} {xs : List α} {ys : List β} :
    xs.mapM f = .ok ys ↔ List.Forall₂ (fun x y => f x = .ok y) xs ys := by
  induction xs generalizing ys with
  | nil =>
      rw [List.mapM_nil, List.forall₂_nil_left_iff]
      exact ⟨fun h => (Except.ok.inj h).symm, fun h => congrArg Except.ok h.symm⟩
  | cons x xs ih =>
      rw [List.mapM_cons, List.forall₂_cons_left_iff, bind_eq_ok_iff]
      simp only [bind_eq_ok_iff, ih]
      constructor
      · rintro ⟨y, hy, ys', hys, ⟨⟩⟩
        exact ⟨y, ys', hy, hys, rfl⟩
      · rintro ⟨y, ys', hy, hys, rfl⟩
        exact ⟨y, hy, ys', hys, rfl⟩

end Loops

theorem mapM_parseArg_eq_ok_iff {inputs : List FnArg} {args : List (Ident × Ty)} :
    inputs.mapM parseArg = .ok args ↔ inputs = args.map FnArg.ofField := by
  simp only [mapM_eq_ok_iff, parseArg_eq_ok_iff]
  rw [← List.forall₂_map_right_iff (R := (· = ·)), List.forall₂_eq_eq_eq]

/-- A function is accepted exactly with a receiver, a caller and named parameters behind them, and
these are what is kept of it. -/
theorem parseFn_eq_ok_iff {method : ImplItemFn} {m : CallVariantDef} :
    parseFn method = .ok m ↔ m.name = method.name ∧ ∃ pat : Pat, pat.IsCaller ∧
      method.inputs = .receiver :: .typed pat accountIdTy :: m.args.map FnArg.ofField := by
  obtain ⟨name, args⟩ := m
  obtain ⟨fnName, vis, inputs, distinct⟩ := method
  dsimp only
  cases inputs with
  | nil =>
      refine iff_of_false (fun h => nomatch h) ?_
      rintro ⟨-, _, -, h⟩
      cases h
  | cons first inputs =>
      cases first with
      | typed pat ty =>
          refine iff_of_false (fun h => nomatch h) ?_
          rintro ⟨-, _, -, h⟩
          cases h
      | receiver =>
          cases inputs with
          | nil =>
              refine iff_of_false (fun h => nomatch h) ?_
              rintro ⟨-, _, -, h⟩
              cases h
          | cons second rest =>
              cases second with
              | receiver =>
                  refine iff_of_false (fun h => nomatch h) ?_
                  rintro ⟨-, _, -, h⟩
                  cases h
              | typed pat ty =>
                  have hrun : parseFn ⟨fnName, vis, .receiver :: .typed pat ty :: rest, distinct⟩ =
                      checkCallerArg pat ty >>= fun _ => rest.mapM parseArg >>= fun args =>
                        pure ⟨fnName, args⟩ := rfl
                  simp only [hrun, bind_eq_ok_iff, checkCallerArg_eq_ok_iff,
                    mapM_parseArg_eq_ok_iff]
                  constructor
                  · rintro ⟨-, ⟨hpat, rfl⟩, _, rfl, ⟨⟩⟩
                    exact ⟨rfl, pat, hpat, rfl⟩
                  · rintro ⟨rfl, pat', hpat, h⟩
                    cases h
                    exact ⟨(), ⟨hpat, rfl⟩, args, rfl, rfl⟩

/-- What is kept of an accepted block: the name of its struct and every function, in order. -/
theorem tryFrom_eq_ok_iff {item : ItemImpl} {d : CallDef} :
    CallDef.tryFrom (.impl item) = .ok d ↔ (∃ rest, item.selfTy = .path d.palletStruct rest) ∧
      List.Forall₂ (fun method m => parseFn method = .ok m) item.fns d.methods := by
  obtain ⟨palletStruct, methods⟩ := d
  rw [CallDef.tryFrom]
  cases item.selfTy with
  | other =>
      refine iff_of_false (fun h => nomatch h) ?_
      rintro ⟨⟨_, h⟩, -⟩
      cases h
  | path first rest =>
      rw [bind_eq_ok_iff]
      simp only [mapM_eq_ok_iff]
      constructor
      · rintro ⟨_, h, ⟨⟩⟩
        exact ⟨⟨rest, rfl⟩, h⟩
      · rintro ⟨⟨_, ⟨⟩⟩, h⟩
        exact ⟨methods, h, rfl⟩

/-! ## Expansion -/

/-- A variant of the generated enum. -/
structure Variant where
  name : Ident
  fields : List (Ident × Ty)
deriving DecidableEq

/-- An arm of the generated dispatch: `Call::variant { binds } => self.callee(args)?`. -/
structure Arm where
  variant : Ident
  binds : List Ident
  callee : Ident
  args : List Ident
deriving DecidableEq

/-- The generated code: the enum `Call`, and `Dispatch` for the pallet. -/
structure Expansion where
  palletStruct : Ident
  variants : List Variant
  arms : List Arm
deriving DecidableEq

/-- The names, the argument names and the argument types are three lists, which the generated code
walks in step. -/
def expandCall (self : CallDef) : Expansion :=
  let fnName := self.methods.map CallVariantDef.name
  let argsName := self.methods.map fun method => method.args.map Prod.fst
  let argsType := self.methods.map fun method => method.args.map Prod.snd
  { palletStruct := self.palletStruct
    variants := List.zipWith Variant.mk fnName (List.zipWith List.zip argsName argsType)
    arms := List.zipWith (fun name args => ⟨name, args, name, "caller" :: args⟩) fnName argsName }

/-- The three lists put together again give one variant for each method. -/
theorem expandCall_variants (self : CallDef) :
    (expandCall self).variants = self.methods.map fun m => ⟨m.name, m.args⟩ := by
  simp only [expandCall, List.zipWith_map, List.zipWith_self, List.zip_map', List.map_id']

theorem expandCall_arms (self : CallDef) :
    (expandCall self).arms = self.methods.map fun m =>
      ⟨m.name, m.args.map Prod.fst, m.name, "caller" :: m.args.map Prod.fst⟩ := by
  simp only [expandCall, List.zipWith_map, List.zipWith_self]

/-! ## Dispatch -/

/-- A value of the generated enum. -/
structure CallValue (V : Type) where
  variant : Ident
  fields : List (Ident × V)

/-- A function of the pallet with its arguments after `self`. -/
structure Invocation (V : Type) where
  callee : Ident
  args : List V
deriving DecidableEq

namespace Expansion

variable {V : Type}

/-- The value has the name and the field names of a variant. -/
def HasValue (self : Expansion) (value : CallValue V) : Prop :=
  ∃ v ∈ self.variants, v.name = value.variant ∧
    v.fields.map Prod.fst = value.fields.map Prod.fst

/-- What a name stands for in an arm: the field it binds, else the parameter of `dispatch`. -/
def lookup (caller : V) (fields : List (Ident × V)) (binds : List Ident) (x : Ident) : Option V :=
  if x ∈ binds then fields.lookup x
  else if x = "caller" then some caller
  else none

/-- The invocation of the first arm that matches; its result is handed on by `?`. -/
def dispatch (self : Expansion) (caller : V) (value : CallValue V) : Option (Invocation V) := do
  let arm ← self.arms.find? fun arm => arm.variant = value.variant
  let args ← arm.args.mapM (lookup caller value.fields arm.binds)
  return ⟨arm.callee, args⟩

end Expansion

section Lookup

variable {α : Type}

/-- The only element with its key is the first one that is found. -/
theorem find?_of_nodup {key : α → Ident} {l : List α} (h : (l.map key).Nodup) {a : α}
    (ha : a ∈ l) : (l.find? fun b => key b = key a) = some a := by
  induction l with
  | nil => cases ha
  | cons b l ih =>
      obtain ⟨hb, hl⟩ := List.nodup_cons.mp h
      rcases List.mem_cons.mp ha with rfl | ha
      · exact List.find?_cons_of_pos (decide_eq_true rfl)
      · have hne : key b ≠ key a := fun heq => hb (heq ▸ List.mem_map_of_mem ha)
        rw [List.find?_cons_of_neg (by simp [hne])]
        exact ih hl ha

/-- A field is looked up by its name if no other one has it. -/
theorem lookup_of_nodup {fields : List (Ident × α)} (h : (fields.map Prod.fst).Nodup)
    {p : Ident × α} (hp : p ∈ fields) : fields.lookup p.1 = some p.2 := by
  induction fields with
  | nil => cases hp
  | cons q fields ih =>
      obtain ⟨hq, hfields⟩ := List.nodup_cons.mp h
      rcases List.mem_cons.mp hp with rfl | hp
      · exact List.lookup_cons_self
      · have hne : ¬ p.1 = q.1 := fun heq => hq (heq ▸ List.mem_map_of_mem hp)
        rw [List.lookup_cons, beq_false_of_ne hne]
        exact ih hfields hp

theorem mapM_fst {fields : List (Ident × α)} {g : Ident → Option α}
    (h : ∀ p ∈ fields, g p.1 = some p.2) :
    (fields.map Prod.fst).mapM g = some (fields.map Prod.snd) := by
  induction fields with
  | nil => rfl
  | cons p fields ih =>
      rw [List.map_cons, List.mapM_cons, h p List.mem_cons_self,
        ih fun q hq => h q (List.mem_cons_of_mem _ hq)]
      rfl

end Lookup

/-- A value of a method's variant runs that method, with what `caller` stands for in the arm and
then the fields. -/
theorem dispatch_expandCall {d : CallDef} (hnames : (d.methods.map CallVariantDef.name).Nodup)
    {m : CallVariantDef} (hm : m ∈ d.methods) {V : Type} (caller : V) {fields : List (Ident × V)}
    (hfields : m.args.map Prod.fst = fields.map Prod.fst)
    (hdistinct : (m.args.map Prod.fst).Nodup) :
    (expandCall d).dispatch caller ⟨m.name, fields⟩ =
      (Expansion.lookup caller fields (m.args.map Prod.fst) "caller").map fun v =>
        ⟨m.name, v :: fields.map Prod.snd⟩ := by
  have hfind : (expandCall d).arms.find? (fun arm => arm.variant = m.name) =
      some ⟨m.name, m.args.map Prod.fst, m.name, "caller" :: m.args.map Prod.fst⟩ := by
    rw [expandCall_arms, List.find?_map]
    exact congrArg (Option.map _) (find?_of_nodup hnames hm)
  have hargs : (m.args.map Prod.fst).mapM
      (Expansion.lookup caller fields (m.args.map Prod.fst)) = some (fields.map Prod.snd) := by
    rw [hfields] at hdistinct ⊢
    apply mapM_fst
    intro p hp
    rw [Expansion.lookup, if_pos (List.mem_map_of_mem hp)]
    exact lookup_of_nodup hdistinct hp
  rw [Expansion.dispatch]
  dsimp only
  rw [hfind, Option.bind_eq_bind, Option.bind_some, List.mapM_cons, hargs]
  cases Expansion.lookup caller fields (m.args.map Prod.fst) "caller" with
  | none => rfl
  | some v => rfl

/-! ## What is exposed -/

/-- The parameters after the first two. -/
def ImplItemFn.rest (self : ImplItemFn) : List FnArg := self.inputs.drop 2

/-- What the macro is for: one variant for each `pub fn`, in order, with the parameters after the
caller as its fields; every call runs the function of its name with the caller and the fields; and
no function that is not `pub` is run. -/
structure ExposesPublic (item : ItemImpl) (e : Expansion) : Prop where
  variants : (e.variants.map fun v => (v.name, v.fields.map FnArg.ofField)) =
    (item.fns.filter fun f => f.vis = .pub).map fun f => (f.name, f.rest)
  dispatch : ∀ (V : Type) (caller : V) (value : CallValue V), e.HasValue value →
    e.dispatch caller value = some ⟨value.variant, caller :: value.fields.map Prod.snd⟩
  unreachable : ∀ f ∈ item.fns, f.vis ≠ .pub → ∀ (V : Type) (caller : V) (value : CallValue V),
    e.HasValue value → ∀ inv, e.dispatch caller value = some inv → inv.callee ≠ f.name

section Accepted

variable {item : ItemImpl} {d : CallDef}

/-- The methods of an accepted block are its functions with their parameters. -/
theorem methods_of_accepted (h : CallDef.tryFrom (.impl item) = .ok d) :
    (d.methods.map fun m => (m.name, m.args.map FnArg.ofField)) =
      item.fns.map fun f => (f.name, f.rest) := by
  obtain ⟨-, hall⟩ := tryFrom_eq_ok_iff.mp h
  have heq : List.Forall₂ (fun (f : ImplItemFn) (m : CallVariantDef) =>
      (f.name, f.rest) = (m.name, m.args.map FnArg.ofField)) item.fns d.methods := by
    refine hall.imp ?_
    intro f m hparse
    obtain ⟨hname, pat, -, hinputs⟩ := parseFn_eq_ok_iff.mp hparse
    rw [ImplItemFn.rest, hinputs, hname]
    rfl
  rw [← List.forall₂_eq_eq_eq, List.forall₂_map_left_iff, List.forall₂_map_right_iff]
  exact heq.flip.imp fun _ _ => Eq.symm

theorem names_of_accepted (h : CallDef.tryFrom (.impl item) = .ok d) :
    (d.methods.map CallVariantDef.name).Nodup := by
  have hnames := congrArg (List.map Prod.fst) (methods_of_accepted h)
  rw [List.map_map, List.map_map] at hnames
  exact hnames ▸ item.distinct

/-- Each method comes from a function, with its name and its parameters. -/
theorem function_of_method (h : CallDef.tryFrom (.impl item) = .ok d) {m : CallVariantDef}
    (hm : m ∈ d.methods) : ∃ f ∈ item.fns, f.name = m.name ∧ f.rest = m.args.map FnArg.ofField := by
  have hmem := List.mem_map_of_mem (f := fun m : CallVariantDef =>
    (m.name, m.args.map FnArg.ofField)) hm
  rw [methods_of_accepted h] at hmem
  obtain ⟨f, hf, heq⟩ := List.mem_map.mp hmem
  obtain ⟨hname, hrest⟩ := Prod.mk.inj heq
  exact ⟨f, hf, hname, hrest⟩

theorem method_of_function (h : CallDef.tryFrom (.impl item) = .ok d) {f : ImplItemFn}
    (hf : f ∈ item.fns) : ∃ m ∈ d.methods, m.name = f.name ∧ m.args.map FnArg.ofField = f.rest := by
  have hmem := List.mem_map_of_mem (f := fun f : ImplItemFn => (f.name, f.rest)) hf
  rw [← methods_of_accepted h] at hmem
  obtain ⟨m, hm, heq⟩ := List.mem_map.mp hmem
  obtain ⟨hname, hrest⟩ := Prod.mk.inj heq
  exact ⟨m, hm, hname, hrest⟩

theorem filterMap_ofField (args : List (Ident × Ty)) :
    (args.map FnArg.ofField).filterMap FnArg.name? = args.map Prod.fst := by
  induction args with
  | nil => rfl
  | cons arg args ih => exact congrArg (arg.1 :: ·) ih

theorem fields_distinct (h : CallDef.tryFrom (.impl item) = .ok d) {m : CallVariantDef}
    (hm : m ∈ d.methods) : (m.args.map Prod.fst).Nodup := by
  obtain ⟨f, -, -, hrest⟩ := function_of_method h hm
  rw [← filterMap_ofField, ← hrest]
  exact f.distinct.sublist ((List.drop_sublist 2 f.inputs).filterMap FnArg.name?)

end Accepted

/-- The generated code exposes exactly the public functions of an accepted block if there are no
others and no parameter after the second is named `caller`, and only then. -/
theorem exposes_public_iff {item : ItemImpl} {d : CallDef}
    (h : CallDef.tryFrom (.impl item) = .ok d) :
    ExposesPublic item (expandCall d) ↔ (∀ f ∈ item.fns, f.vis = .pub) ∧
      ∀ f ∈ item.fns, "caller" ∉ f.rest.filterMap FnArg.name? := by
  have hvariants : ((expandCall d).variants.map fun v => (v.name, v.fields.map FnArg.ofField)) =
      item.fns.map fun f => (f.name, f.rest) := by
    rw [expandCall_variants, List.map_map]
    exact methods_of_accepted h
  constructor
  · intro hexposes
    constructor
    · have hlen := congrArg List.length (hvariants.symm.trans hexposes.variants)
      rw [List.length_map, List.length_map] at hlen
      intro f hf
      exact of_decide_eq_true (List.length_filter_eq_length_iff.mp hlen.symm f hf)
    · intro f hf hcaller
      obtain ⟨m, hm, -, hrest⟩ := method_of_function h hf
      rw [← hrest, filterMap_ofField] at hcaller
      -- a call whose fields are all `true` of a caller that is `false`
      let fields : List (Ident × Bool) := m.args.map fun arg => (arg.1, true)
      have hfields : m.args.map Prod.fst = fields.map Prod.fst := by
        rw [List.map_map]
        rfl
      have hvalue : (expandCall d).HasValue ⟨m.name, fields⟩ := by
        refine ⟨⟨m.name, m.args⟩, ?_, rfl, hfields⟩
        rw [expandCall_variants]
        exact List.mem_map_of_mem hm
      have hrun := hexposes.dispatch Bool false ⟨m.name, fields⟩ hvalue
      have hdistinct := fields_distinct h hm
      obtain ⟨arg, harg, hname⟩ := List.mem_map.mp hcaller
      have htrue : fields.lookup "caller" = some true := by
        rw [← hname]
        exact lookup_of_nodup (hfields ▸ hdistinct) (List.mem_map_of_mem harg)
      rw [dispatch_expandCall (names_of_accepted h) hm false hfields hdistinct,
        Expansion.lookup, if_pos hcaller, htrue] at hrun
      cases hrun
  · rintro ⟨hpub, hcaller⟩
    refine ⟨?_, ?_, fun f hf hne => absurd (hpub f hf) hne⟩
    · rw [hvariants, List.filter_eq_self.mpr fun f hf => decide_eq_true (hpub f hf)]
    · rintro V caller ⟨variant, fields⟩ ⟨v, hv, rfl, hfields⟩
      rw [expandCall_variants] at hv
      obtain ⟨m, hm, rfl⟩ := List.mem_map.mp hv
      obtain ⟨f, hf, -, hrest⟩ := function_of_method h hm
      have hnot : "caller" ∉ m.args.map Prod.fst := by
        rw [← filterMap_ofField, ← hrest]
        exact hcaller f hf
      rw [dispatch_expandCall (names_of_accepted h) hm caller hfields (fields_distinct h hm),
        Expansion.lookup, if_neg hnot, if_pos rfl]
      rfl

/-- A pallet with a public transfer and a private function that mints. -/
def mintBlock : ItemImpl where
  selfTy := .path "Pallet" []
  items := [
    .fn {
      name := "transfer"
      vis := .pub
      inputs := [.receiver, .typed (.ident "caller") accountIdTy,
        .typed (.ident "to") accountIdTy, .typed (.ident "amount") ["T", "::", "Balance"]]
      distinct := by decide },
    .fn {
      name := "mint"
      vis := .inherited
      inputs := [.receiver, .typed (.ident "caller") accountIdTy,
        .typed (.ident "amount") ["T", "::", "Balance"]]
      distinct := by decide }]
  distinct := by decide

/-- Any extrinsic can call the private function. -/
theorem private_fn_exposed :
    ∃ d, CallDef.tryFrom (.impl mintBlock) = .ok d ∧
      (expandCall d).variants.map Variant.name = ["transfer", "mint"] ∧
      (expandCall d).dispatch "mallory" ⟨"mint", [("amount", "1000000")]⟩ =
        some ⟨"mint", ["mallory", "1000000"]⟩ ∧
      ¬ ExposesPublic mintBlock (expandCall d) := by
  refine ⟨_, rfl, rfl, rfl, ?_⟩
  intro h
  have hvariants := congrArg List.length h.variants
  cases hvariants

/-! ## The pallets -/

/-- The impl block of the balances pallet. -/
def balancesBlock : ItemImpl where
  selfTy := .path "Pallet" []
  items := [
    .fn {
      name := "transfer"
      vis := .pub
      inputs := [.receiver, .typed (.ident "caller") accountIdTy,
        .typed (.ident "to") accountIdTy, .typed (.ident "amount") ["T", "::", "Balance"]]
      distinct := by decide }]
  distinct := by decide

/-- The macro exposes the balances pallet as it should. -/
theorem exposes_public_iff_balancesBlock :
    ∃ d, CallDef.tryFrom (.impl balancesBlock) = .ok d ∧
      ExposesPublic balancesBlock (expandCall d) := by
  refine ⟨_, rfl, (exposes_public_iff rfl).mpr ⟨?_, ?_⟩⟩
  · decide
  · decide

/-- The impl block of the proof-of-existence pallet. -/
def proofOfExistenceBlock : ItemImpl where
  selfTy := .path "Pallet" []
  items := ["create_claim", "revoke_claim"].map fun name =>
    .fn {
      name
      vis := .pub
      inputs := [.receiver, .typed (.ident "caller") accountIdTy,
        .typed (.ident "claim") ["T", "::", "Content"]]
      distinct := by decide }
  distinct := by decide

section Balances

variable {AccountId Balance : Type}

/-- A call as a value of the generated enum. -/
def balancesValue : Balances.Call AccountId Balance → CallValue (AccountId ⊕ Balance)
  | .transfer recipient amount =>
      ⟨"transfer", [("to", .inl recipient), ("amount", .inr amount)]⟩

variable [Ord AccountId] [TransOrd AccountId] [Encode AccountId] [Encode Balance] [Zero Balance]
  [CheckedAdd Balance] [CheckedSub Balance]

/-- The function of the pallet that an invocation names. -/
def balancesFn : Invocation (AccountId ⊕ Balance) →
    Option (Exec Write (Balances.Pallet AccountId Balance) DispatchResult)
  | ⟨"transfer", [.inl caller, .inl recipient, .inr amount]⟩ =>
      some (Balances.Pallet.transfer caller recipient amount)
  | _ => none

/-- The dispatch of the balances pallet is the generated one. -/
theorem balances_dispatch_eq (caller : AccountId) (call : Balances.Call AccountId Balance) :
    ∃ d, CallDef.tryFrom (.impl balancesBlock) = .ok d ∧
      ((expandCall d).dispatch (.inl caller) (balancesValue call)).bind balancesFn =
        some (Balances.Pallet.dispatch caller call) := by
  cases call with
  | transfer recipient amount => exact ⟨_, rfl, rfl⟩

end Balances

section ProofOfExistence

variable {AccountId Content : Type}

/-- The calls of the proof-of-existence pallet, as values of the generated enum. -/
def proofOfExistenceValue : ProofOfExistence.Call Content → CallValue (AccountId ⊕ Content)
  | .createClaim claim => ⟨"create_claim", [("claim", .inr claim)]⟩
  | .revokeClaim claim => ⟨"revoke_claim", [("claim", .inr claim)]⟩

variable [Ord Content] [TransOrd Content] [Encode AccountId] [Encode Content]
  [DecidableEq AccountId]

/-- The functions of the proof-of-existence pallet, under their names. -/
def proofOfExistenceFn : Invocation (AccountId ⊕ Content) →
    Option (Exec Write (ProofOfExistence.Pallet AccountId Content) DispatchResult)
  | ⟨"create_claim", [.inl caller, .inr claim]⟩ =>
      some (ProofOfExistence.Pallet.createClaim caller claim)
  | ⟨"revoke_claim", [.inl caller, .inr claim]⟩ =>
      some (ProofOfExistence.Pallet.revokeClaim caller claim)
  | _ => none

/-- The dispatch of the proof-of-existence pallet is the generated one. -/
theorem proofOfExistence_dispatch_eq (caller : AccountId) (call : ProofOfExistence.Call Content) :
    ∃ d, CallDef.tryFrom (.impl proofOfExistenceBlock) = .ok d ∧
      ((expandCall d).dispatch (.inl caller) (proofOfExistenceValue call)).bind
          proofOfExistenceFn =
        some (ProofOfExistence.Pallet.dispatch caller call) := by
  cases call with
  | createClaim claim => exact ⟨_, rfl, rfl⟩
  | revokeClaim claim => exact ⟨_, rfl, rfl⟩

end ProofOfExistence

end RustStateMachine.CallMacro
