import RustStateMachine.CallMacro

/-!
# The runtime macro

`#[macros::runtime]` reads the fields of a struct and generates the enum
`RuntimeCall`, its dispatch and the constructor of the struct. The first field
is the system pallet, which has no calls.
-/

namespace RustStateMachine.RuntimeMacro

open CallMacro

/-! ## Structs -/

/-- A field, with a name unless the struct is a tuple. -/
structure Field where
  ident : Option Ident
  ty : Ty
deriving DecidableEq

/-- A struct. The language lets either all of its fields have a name or none, and no two of them
the same one. -/
structure ItemStruct where
  ident : Ident
  fields : List Field
  uniform : (∀ f ∈ fields, f.ident ≠ none) ∨ ∀ f ∈ fields, f.ident = none
  distinct : (fields.filterMap Field.ident).Nodup

/-- What the attribute is put on. -/
inductive Item where
  | struct (item : ItemStruct)
  | other

/-! ## Parsing -/

/-- The name of the runtime struct and its pallets after the system. -/
structure RuntimeDef where
  runtimeStruct : Ident
  pallets : List (Ident × Ty)
deriving DecidableEq

/-- The system pallet has to be the first field. -/
def checkSystem (itemStruct : ItemStruct) : Except String Unit := do
  let firstFieldName ←
    match itemStruct.fields with
    | firstField :: _ =>
        match firstField.ident with
        | some fieldName => pure fieldName
        | none => throw "first field is expected to have the name system"
    | [] => throw "runtime struct is expected to have fields"
  if firstFieldName ≠ "system" then throw "first field is expected to be named system"

/-- A field after the first one; one without a name is passed over. -/
def palletOf (field : Field) : Option (Ident × Ty) := field.ident.map fun ident => (ident, field.ty)

/-- The name of a struct with the system pallet in front, and its other fields. -/
def RuntimeDef.tryFrom : Item → Except String RuntimeDef
  | .other => .error "Invalid runtime, expected item struct"
  | .struct item => do
      checkSystem item
      return ⟨item.ident, (item.fields.drop 1).filterMap palletOf⟩

theorem checkSystem_eq_ok_iff {item : ItemStruct} {u : Unit} :
    checkSystem item = .ok u ↔ ∃ ty rest, item.fields = ⟨some "system", ty⟩ :: rest := by
  obtain ⟨name, fields, uniform, distinct⟩ := item
  cases fields with
  | nil =>
      refine iff_of_false (fun h => nomatch h) ?_
      rintro ⟨_, _, h⟩
      cases h
  | cons first rest =>
      obtain ⟨ident, ty⟩ := first
      cases ident with
      | none =>
          refine iff_of_false (fun h => nomatch h) ?_
          rintro ⟨_, _, h⟩
          cases h
      | some fieldName =>
          have hrun : checkSystem ⟨name, ⟨some fieldName, ty⟩ :: rest, uniform, distinct⟩ =
              if fieldName ≠ "system" then .error "first field is expected to be named system"
              else .ok () := rfl
          rw [hrun]
          split_ifs with hne
          · refine iff_of_false (fun h => nomatch h) ?_
            rintro ⟨_, _, h⟩
            cases h
            exact hne rfl
          · have heq : fieldName = "system" := not_not.mp hne
            have hfields : (⟨some fieldName, ty⟩ :: rest : List Field) =
                ⟨some "system", ty⟩ :: rest := by rw [heq]
            exact iff_of_true rfl ⟨ty, rest, hfields⟩

/-- Exactly the structs with the system pallet in front are accepted, and of them the name and the
other fields are kept. -/
theorem tryFrom_eq_ok_iff {item : Item} {d : RuntimeDef} :
    RuntimeDef.tryFrom item = .ok d ↔ ∃ (s : ItemStruct) (ty : Ty) (rest : List Field),
      item = .struct s ∧ s.fields = ⟨some "system", ty⟩ :: rest ∧
        d = ⟨s.ident, rest.filterMap palletOf⟩ := by
  cases item with
  | other =>
      refine iff_of_false (fun h => nomatch h) ?_
      rintro ⟨_, _, _, h, -⟩
      cases h
  | struct s =>
      rw [RuntimeDef.tryFrom, bind_eq_ok_iff]
      simp only [checkSystem_eq_ok_iff]
      constructor
      · rintro ⟨-, ⟨ty, rest, hfields⟩, ⟨⟩⟩
        rw [hfields]
        exact ⟨s, ty, rest, rfl, hfields, rfl⟩
      · rintro ⟨_, ty, rest, ⟨⟩, hfields, rfl⟩
        refine ⟨(), ⟨ty, rest, hfields⟩, ?_⟩
        rw [hfields]
        rfl

/-! ## Expansion -/

/-- The generated code: what `new` builds, as fields with the types whose `new` they call, the
variants of `RuntimeCall` with the field whose calls they hold, the arms of `dispatch` with the
field that is called, the struct they are for and the one whose accounts are the callers. -/
structure Expansion where
  implFor : Ident
  callerOf : Ident
  constructed : List (Ident × Ty)
  variants : List (Ident × Ident)
  arms : List (Ident × Ident)
deriving DecidableEq

/-- The tokens of the type of the system pallet. -/
def systemTy : Ty := ["system", "::", "Pallet", "<", "Self", ">"]

/-- The names and the types are two lists, which the generated code walks in step. The name
`Runtime` is written out where the callers' accounts are. -/
def expandRuntime (self : RuntimeDef) : Expansion :=
  let palletNames := self.pallets.map Prod.fst
  let palletTypes := self.pallets.map Prod.snd
  { implFor := self.runtimeStruct
    callerOf := "Runtime"
    constructed := ("system", systemTy) :: List.zip palletNames palletTypes
    variants := List.zip palletNames palletNames
    arms := List.zip palletNames palletNames }

/-- What generated code needs so that its names fit the struct: every field is built once and with
its own type, and the calls of each other field have one variant and one arm, which runs that
field. -/
structure Fits (item : ItemStruct) (e : Expansion) : Prop where
  constructed : e.constructed.map (fun p => (some p.1, p.2)) =
    item.fields.map fun f => (f.ident, f.ty)
  nodup : (e.variants.map Prod.fst).Nodup
  variants : e.variants.map (fun p => some p.2) = (item.fields.drop 1).map Field.ident
  arms : ∀ v, v ∈ e.arms ↔ v ∈ e.variants
  own : ∀ v ∈ e.arms, v.1 = v.2 ∧ v.2 ≠ "system"
  callers : e.callerOf = e.implFor

theorem map_palletOf {fields : List Field} (h : ∀ f ∈ fields, f.ident ≠ none) :
    (fields.filterMap palletOf).map (fun p => (some p.1, p.2)) =
      fields.map fun f => (f.ident, f.ty) := by
  induction fields with
  | nil => rfl
  | cons f fields ih =>
      obtain ⟨ident, ty⟩ := f
      cases ident with
      | none => exact absurd rfl (h _ List.mem_cons_self)
      | some name =>
          have hrest := ih fun g hg => h g (List.mem_cons_of_mem _ hg)
          exact congrArg ((some name, ty) :: ·) hrest

theorem filterMap_palletOf_fst (fields : List Field) :
    (fields.filterMap palletOf).map Prod.fst = fields.filterMap Field.ident := by
  induction fields with
  | nil => rfl
  | cons f fields ih =>
      obtain ⟨ident, ty⟩ := f
      cases ident with
      | none => exact ih
      | some name => exact congrArg (name :: ·) ih

/-- What is generated for an accepted struct fits it exactly if its first field has the type of the
system pallet and its name is the one the macro writes out. -/
theorem generated_fits_iff {item : ItemStruct} {d : RuntimeDef}
    (h : RuntimeDef.tryFrom (.struct item) = .ok d) :
    Fits item (expandRuntime d) ↔
      (item.fields.head?.map Field.ty) = some systemTy ∧ item.ident = "Runtime" := by
  obtain ⟨s, ty, rest, hs, hfields, rfl⟩ := tryFrom_eq_ok_iff.mp h
  cases hs
  have hnamed : ∀ f ∈ rest, f.ident ≠ none := by
    rcases item.uniform with hall | hall
    · intro f hf
      exact hall f (hfields ▸ List.mem_cons_of_mem _ hf)
    · have hfirst := hall ⟨some "system", ty⟩ (hfields ▸ List.mem_cons_self)
      cases hfirst
  have hnames := filterMap_palletOf_fst rest
  have hdistinct : ("system" :: rest.filterMap Field.ident).Nodup := by
    have hall := item.distinct
    rw [hfields] at hall
    exact hall
  rw [List.nodup_cons, ← hnames] at hdistinct
  have hpairs : ∀ names : List Ident, names.zip names = names.map fun name => (name, name) := by
    intro names
    rw [List.zip_eq_zipWith, List.zipWith_self]
  constructor
  · intro hfits
    have hfirst := hfits.constructed
    rw [hfields] at hfirst
    refine ⟨?_, hfits.callers.symm⟩
    rw [hfields]
    have hty : systemTy = ty := (Prod.mk.inj (List.cons.inj hfirst).1).2
    rw [hty]
    rfl
  · rintro ⟨hty, hname⟩
    rw [hfields] at hty
    have hsystem : ty = systemTy := Option.some.inj hty
    constructor
    · rw [hfields, hsystem, expandRuntime, List.map_cons, List.map_cons, ← map_palletOf hnamed,
        List.zip_map', List.map_map]
      rfl
    · rw [expandRuntime, hpairs, List.map_map]
      simpa [Function.comp_def] using hdistinct.2
    · rw [hfields, expandRuntime, hpairs, List.map_map]
      have hidents := congrArg (List.map Prod.fst) (map_palletOf hnamed)
      simpa [Function.comp_def] using hidents
    · exact fun v => Iff.rfl
    · intro v hv
      rw [expandRuntime, hpairs, List.mem_map] at hv
      obtain ⟨name, hmem, rfl⟩ := hv
      refine ⟨rfl, ?_⟩
      rintro rfl
      exact hdistinct.1 hmem
    · exact hname.symm

/-- The struct `Runtime` of the crate. -/
def runtimeStruct : ItemStruct where
  ident := "Runtime"
  fields := ["system", "balances", "proof_of_existence"].map fun name =>
    ⟨some name, [name, "::", "Pallet", "<", "Self", ">"]⟩
  uniform := .inl (by decide)
  distinct := by decide

theorem generated_fits_iff_runtimeStruct :
    ∃ d, RuntimeDef.tryFrom (.struct runtimeStruct) = .ok d ∧
      d.pallets.map Prod.fst = ["balances", "proof_of_existence"] ∧
      Fits runtimeStruct (expandRuntime d) :=
  ⟨_, rfl, rfl, (generated_fits_iff rfl).mpr ⟨rfl, rfl⟩⟩

end RustStateMachine.RuntimeMacro
