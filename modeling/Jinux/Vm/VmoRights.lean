import Jinux.Lib.Lts
import Jinux.Lib.StateRules
import Jinux.Vm.Vmo

/-!
# The rights of VMO capabilities

A capability to a VMO carries access rights, as a value (`Vmo<Rights>`) or as a type-level set
(`Vmo<TRightSet<R>>`).  A holder derives further capabilities from it: `dup`, `restrict`, and the
allocation of a slice or a copy-on-write child.  Rights are meant to shrink on the way, except that
a copy-on-write child may be written.

* `CapOp.Lawful` : what the documentation of each method promises about the rights;
* `CapOp.run` : what the methods do.  A bound of a static method is checked by the compiler, so that
  a program which does not meet it does not run at all;
* `Capability.lawful_iff_exact` : **the promises hold except for two methods of the dynamic type**:
  `restrict` adds the mask, and a copy-on-write child gets no right to write.
-/

namespace Jinux

open Bool List Option

/-! ### Sets of rights -/

/-- The rights: the constants of `Rights` and the flags of `TRights`. -/
inductive RightFlag where
  | dup
  | read
  | write
  | exec
  | signal
  deriving DecidableEq, Repr

namespace Rights

/-- Whether a right is in the set. -/
def has (r : Rights) : RightFlag → Bool
  | .dup => r.dup
  | .read => r.read
  | .write => r.write
  | .exec => r.exec
  | .signal => r.signal

/-- The set of the rights that satisfy `p`. -/
def ofPred (p : RightFlag → Bool) : Rights := ⟨p .dup, p .read, p .write, p .exec, p .signal⟩

/-- `|` -/
def union (r s : Rights) : Rights := ofPred fun f => r.has f || s.has f

/-- `&` -/
def inter (r s : Rights) : Rights := ofPred fun f => r.has f && s.has f

variable {r s t : Rights} {f : RightFlag}

@[simp] theorem has_ofPred (p : RightFlag → Bool) (f : RightFlag) : (ofPred p).has f = p f := by
  cases f <;> rfl

@[simp] theorem has_union : (r.union s).has f = (r.has f || s.has f) := has_ofPred _ f

@[simp] theorem has_inter : (r.inter s).has f = (r.has f && s.has f) := has_ofPred _ f

theorem ext_has (h : ∀ f, r.has f = s.has f) : r = s := by
  rw [mk.injEq]
  exact ⟨h .dup, h .read, h .write, h .exec, h .signal⟩

theorem contains_iff : r.contains s = true ↔ ∀ f, s.has f = true → r.has f = true := by
  simp only [contains, and_eq_true, or_eq_true, not_eq_true']
  constructor
  · rintro ⟨⟨⟨⟨hdup, hread⟩, hwrite⟩, hexec⟩, hsignal⟩ f hf
    cases f <;> simp_all [has]
  · intro h
    have hor : ∀ f, s.has f = false ∨ r.has f = true := fun f => by
      cases hf : s.has f
      · exact Or.inl rfl
      · exact Or.inr (h f hf)
    exact ⟨⟨⟨⟨hor .dup, hor .read⟩, hor .write⟩, hor .exec⟩, hor .signal⟩

theorem contains_refl (r : Rights) : r.contains r = true := contains_iff.2 fun _ h => h

theorem contains_trans (h : r.contains s = true) (h' : s.contains t = true) : r.contains t = true :=
  contains_iff.2 fun f hf => contains_iff.1 h f (contains_iff.1 h' f hf)

theorem contains_inter : r.contains (r.inter s) = true :=
  contains_iff.2 fun _ hf => (and_eq_true_iff.1 (has_inter.symm.trans hf)).1

/-- Adding a mask does what keeping it does, if the mask is the set. -/
theorem union_eq_inter_iff : r.union s = r.inter s ↔ s = r := by
  constructor
  · intro h
    refine ext_has fun f => ?_
    have hf : (r.union s).has f = (r.inter s).has f := by rw [h]
    rw [has_union, has_inter] at hf
    revert hf
    cases r.has f <;> cases s.has f <;> decide
  · rintro rfl
    refine ext_has fun f => ?_
    rw [has_union, has_inter]
    cases s.has f <;> rfl

theorem eq_union_iff : r = r.union s ↔ r.contains s = true := by
  rw [contains_iff]
  constructor
  · intro h f hf
    rw [h, has_union, hf, Bool.or_true]
  · intro h
    refine ext_has fun f => ?_
    rw [has_union]
    cases hf : s.has f
    · rw [Bool.or_false]
    · rw [h f hf, Bool.true_or]

end Rights

/-! ### Type-level sets -/

/-- A type-level set: `Nil` is the empty list and `Cons` adds an item in front. -/
abbrev FlagList := List RightFlag

namespace FlagList

/-- `SetContainOp` -/
def setContain : FlagList → RightFlag → Bool
  | [], _ => false
  | u :: s, t => decide (u = t) || setContain s t

/-- `SetIncludeOp` -/
def setInclude : FlagList → FlagList → Bool
  | [], [] => true
  | [], _ :: _ => false
  | _ :: _, [] => true
  | superT :: superS, subT :: subS =>
    if superT = subT then setInclude superS subS
    else setContain superS subT && setInclude superS subS

/-- The items of `TRights`, in order. -/
def items : List RightFlag := [.dup, .read, .write, .exec, .signal]

/-- `generate_flag_sets`: the set of number `i` has the items whose bits are set. -/
def generateFlagSets : List FlagList :=
  (range (2 ^ items.length)).map fun i =>
    (items.zipIdx.filter fun e => i.testBit e.2).map Prod.fst

/-- The types of the sets: each item is put in front of the ones before it. -/
def flagSets : List FlagList := generateFlagSets.map reverse

/-- `SetExtendOp`, as `impl_set_extend` and the instance for `Nil` define it. -/
def setExtend : FlagList → RightFlag → FlagList
  | [], t => [t]
  | u :: s, t =>
    if t ∈ u :: s then u :: s
    else (flagSets.find? fun bigger => decide (t ∈ bigger ∧ ∀ f ∈ u :: s, f ∈ bigger)).getD (u :: s)

variable {l l' : FlagList} {f t : RightFlag}

theorem setContain_iff : setContain l t = true ↔ t ∈ l := by
  induction l with
  | nil => simp [setContain]
  | cons u s ih =>
    rw [setContain, or_eq_true, decide_eq_true_eq, ih, mem_cons, eq_comm]

theorem subset_of_setInclude (h : setInclude l l' = true) : ∀ f ∈ l', f ∈ l := by
  induction l generalizing l' with
  | nil =>
    cases l' with
    | nil => exact fun f hf => hf
    | cons subT subS => cases h
  | cons superT superS ih =>
    cases l' with
    | nil => exact nofun
    | cons subT subS =>
      rw [setInclude] at h
      intro f hf
      split_ifs at h with heq
      · rcases mem_cons.1 hf with rfl | hf
        · exact heq ▸ mem_cons_self
        · exact mem_cons_of_mem _ (ih h f hf)
      · rw [and_eq_true, setContain_iff] at h
        rcases mem_cons.1 hf with rfl | hf
        · exact mem_cons_of_mem _ h.1
        · exact mem_cons_of_mem _ (ih h.2 f hf)

theorem mem_items (f : RightFlag) : f ∈ items := by cases f <;> decide

theorem setExtend_mem_flagSets (hl : l ∈ flagSets) (t : RightFlag) : setExtend l t ∈ flagSets := by
  have hall : ∀ l ∈ flagSets, ∀ t ∈ items, setExtend l t ∈ flagSets := by decide +kernel
  exact hall l hl t (mem_items t)

theorem mem_setExtend (hl : l ∈ flagSets) (t f : RightFlag) :
    f ∈ setExtend l t ↔ f = t ∨ f ∈ l := by
  have hall : ∀ l ∈ flagSets, ∀ t ∈ items, ∀ f ∈ items, f ∈ setExtend l t ↔ f = t ∨ f ∈ l := by
    decide +kernel
  exact hall l hl t (mem_items t) f (mem_items f)

end FlagList

/-- A type that implements `TRights`. -/
abbrev TRights := {l : FlagList // l ∈ FlagList.flagSets}

namespace TRights

/-- `Rights::from_bits(R::BITS).unwrap()` -/
def toRights (R : TRights) : Rights := .ofPred fun f => decide (f ∈ R.1)

/-- `SetExtendOp<R, T>` -/
def extend (R : TRights) (t : RightFlag) : TRights :=
  ⟨FlagList.setExtend R.1 t, FlagList.setExtend_mem_flagSets R.2 t⟩

@[simp] theorem has_toRights (R : TRights) (f : RightFlag) : R.toRights.has f = decide (f ∈ R.1) :=
  Rights.has_ofPred _ f

theorem toRights_extend (R : TRights) (t : RightFlag) :
    (R.extend t).toRights = R.toRights.union (.ofPred fun f => f = t) := by
  refine Rights.ext_has fun f => ?_
  rw [has_toRights, Rights.has_union, has_toRights, Rights.has_ofPred, Bool.or_comm, ← decide_or]
  exact decide_eq_decide.2 (FlagList.mem_setExtend R.2 t f)

/-- A set that the compiler accepts as a part of another one is their intersection. -/
theorem eq_inter_of_setInclude {R R1 : TRights} (h : FlagList.setInclude R.1 R1.1 = true) :
    R1.toRights = R.toRights.inter R1.toRights := by
  refine Rights.ext_has fun f => ?_
  rw [Rights.has_inter, has_toRights, has_toRights, ← decide_and]
  refine decide_eq_decide.2 ⟨fun hf => ⟨FlagList.subset_of_setInclude h f hf, hf⟩, And.right⟩

end TRights

/-! ### The methods -/

/-- `Vmo<TRightSet<R>>`: a reference to a VMO with rights that are a type. -/
structure StaticVmo where
  id : VmoId
  rights : TRights

/-- `Vmo<Rights>::restrict` -/
def Vmo.restrict (v : Vmo) (mask : Rights) : Vmo := { v with rights := v.rights.union mask }

namespace StaticVmo

/-- `Vmo<TRightSet<R>>::restrict` -/
def restrict (v : StaticVmo) (R1 : TRights) : StaticVmo := { v with rights := R1 }

/-- `new_slice_child(range).alloc()` -/
def newSliceChild (v : StaticVmo) (range : Range) (flags : VmoFlags) : VmoM StaticVmo := do
  let parentFlags := ((← get).vmo v.id).flags
  let id ← World.allocChildVmo v.id range (World.ChildType.flags .slice parentFlags flags) .slice
  return { v with id }

/-- `new_cow_child(range).alloc()` -/
def newCowChild (v : StaticVmo) (range : Range) (flags : VmoFlags) : VmoM StaticVmo := do
  let parentFlags := ((← get).vmo v.id).flags
  let id ← World.allocChildVmo v.id range (World.ChildType.flags .cow parentFlags flags) .cow
  return { id, rights := v.rights.extend .write }

end StaticVmo

/-- A capability of either type. -/
inductive Capability where
  | dynamic (v : Vmo)
  | static (v : StaticVmo)

/-- `rights` -/
def Capability.rights : Capability → Rights
  | .dynamic v => v.rights
  | .static v => v.rights.toRights

/-- A way to derive a capability. -/
inductive CapOp where
  | dup
  /-- `restrict`, of the dynamic type. -/
  | restrict (mask : Rights)
  /-- `restrict`, of the static type. -/
  | restrictTo (R1 : TRights)
  | sliceChild (range : Range) (flags : VmoFlags)
  | cowChild (range : Range) (flags : VmoFlags)

/-- The call of the method; `none` if the compiler rejects it. -/
def CapOp.run : CapOp → Capability → Option (VmoM Capability)
  | .dup, .dynamic v => some do return .dynamic (← liftR v.dup)
  | .dup, .static v => if FlagList.setContain v.rights.1 .dup then some (pure (.static v)) else none
  | .restrict mask, .dynamic v => some (pure (.dynamic (v.restrict mask)))
  | .restrict _, .static _ => none
  | .restrictTo _, .dynamic _ => none
  | .restrictTo R1, .static v =>
    if FlagList.setInclude v.rights.1 R1.1 then some (pure (.static (v.restrict R1))) else none
  | .sliceChild range flags, .dynamic v => some do return .dynamic (← v.newSliceChild range flags)
  | .sliceChild range flags, .static v =>
    if FlagList.setContain v.rights.1 .dup then
      some do return .static (← v.newSliceChild range flags)
    else none
  | .cowChild range flags, .dynamic v => some do return .dynamic (← v.newCowChild range flags)
  | .cowChild range flags, .static v =>
    if FlagList.setContain v.rights.1 .dup then
      some do return .static (← v.newCowChild range flags)
    else none

namespace Capability

/-- A derivation that succeeds. -/
def step (s : World × Capability) (op : CapOp) : Option (World × Capability) :=
  match op.run s.2 with
  | none => none
  | some x =>
    match x s.1 with
    | .ok c w => some (w, c)
    | .error _ _ => none

/-- Any chain of derivations. -/
def lts : Lts (World × Capability) CapOp := Lts.ofFun step

end Capability

namespace CapOp

/-- What the documentation promises about the rights of `c'`, which comes from `c`. -/
def Lawful (op : CapOp) (c c' : Capability) : Prop :=
  match op with
  | .dup => c.rights.contains c'.rights = true
  | .restrict mask => c'.rights = c.rights.inter mask
  | .restrictTo R1 => c'.rights = c.rights.inter R1.toRights
  | .sliceChild _ _ => c.rights.contains c'.rights = true
  | .cowChild _ _ => c'.rights = c.rights.union { write := true }

/-- Whether the two methods of the dynamic type that differ do what they should. -/
def Exact : CapOp → Capability → Prop
  | .restrict mask, .dynamic v => mask = v.rights
  | .cowChild _ _, .dynamic v => v.rights.write = true
  | _, _ => True

/-- The operation does not make a copy-on-write child. -/
def KeepsRights : CapOp → Prop
  | .cowChild _ _ => False
  | _ => True

/-- The rights of the derived capability. -/
def newRights : CapOp → Capability → Rights
  | .restrict mask, c => c.rights.union mask
  | .restrictTo R1, _ => R1.toRights
  | .cowChild _ _, .static v => (v.rights.extend .write).toRights
  | _, c => c.rights

end CapOp

namespace Capability

open StateRules

variable {w w' : World} {c c' : Capability} {op : CapOp}

theorem step_eq_some (h : step (w, c) op = some (w', c')) :
    ∃ x, op.run c = some x ∧ x w = .ok c' w' := by
  unfold step at h
  split at h
  · cases h
  · next x hx =>
    refine ⟨x, hx, ?_⟩
    split at h
    · next c1 w1 hrun =>
      cases h
      exact hrun
    · cases h

theorem eq_of_dup {v u : Vmo} (h : v.dup = .ok u) : u = v := by
  obtain ⟨-, -, hpure⟩ := Result.bind_ok.1 h
  cases hpure
  rfl

variable {range : Range} {flags : VmoFlags} {v v' : StaticVmo}

theorem newSliceChild_rights {v v' : Vmo} (h : v.newSliceChild range flags w = .ok v' w') :
    v'.rights = v.rights := by
  simp only [Vmo.newSliceChild, bind_ok, liftR_ok] at h
  obtain ⟨u, _, ⟨hdup, rfl⟩, _, _, -, _, _, -, hpure⟩ := h
  cases hpure
  rw [eq_of_dup hdup]

theorem newCowChild_rights {v v' : Vmo} (h : v.newCowChild range flags w = .ok v' w') :
    v'.rights = v.rights := by
  simp only [Vmo.newCowChild, bind_ok, liftR_ok] at h
  obtain ⟨u, _, ⟨hdup, rfl⟩, _, _, -, _, _, -, hpure⟩ := h
  cases hpure
  rw [eq_of_dup hdup]

theorem static_newSliceChild_rights (h : v.newSliceChild range flags w = .ok v' w') :
    v'.rights = v.rights := by
  simp only [StaticVmo.newSliceChild, bind_ok] at h
  obtain ⟨_, _, -, _, _, -, hpure⟩ := h
  cases hpure
  rfl

theorem static_newCowChild_rights (h : v.newCowChild range flags w = .ok v' w') :
    v'.rights = v.rights.extend .write := by
  simp only [StaticVmo.newCowChild, bind_ok] at h
  obtain ⟨_, _, -, _, _, -, hpure⟩ := h
  cases hpure
  rfl

theorem eq_of_checked {p : Prop} [Decidable p] {x y : VmoM Capability}
    (h : (if p then some x else none) = some y) : x = y :=
  Option.some.inj (ite_none_right_eq_some.1 h).2

/-- What the code computes. -/
theorem rights_of_step (h : step (w, c) op = some (w', c')) : c'.rights = op.newRights c := by
  obtain ⟨x, hx, hrun⟩ := step_eq_some h
  cases op with
  | dup =>
    cases c with
    | dynamic v =>
      cases hx
      obtain ⟨u, _, hdup, hpure⟩ := bind_ok.1 hrun
      cases hpure
      exact congrArg Vmo.rights (eq_of_dup (liftR_ok.1 hdup).1)
    | static v =>
      obtain rfl := eq_of_checked hx
      cases hrun
      rfl
  | restrict mask =>
    cases c with
    | dynamic v =>
      cases hx
      cases hrun
      rfl
    | static v => cases hx
  | restrictTo R1 =>
    cases c with
    | dynamic v => cases hx
    | static v =>
      obtain rfl := eq_of_checked hx
      cases hrun
      rfl
  | sliceChild range flags =>
    cases c with
    | dynamic v =>
      cases hx
      obtain ⟨u, _, hchild, hpure⟩ := bind_ok.1 hrun
      cases hpure
      exact newSliceChild_rights hchild
    | static v =>
      obtain rfl := eq_of_checked hx
      obtain ⟨u, _, hchild, hpure⟩ := bind_ok.1 hrun
      cases hpure
      exact congrArg TRights.toRights (static_newSliceChild_rights hchild)
  | cowChild range flags =>
    cases c with
    | dynamic v =>
      cases hx
      obtain ⟨u, _, hchild, hpure⟩ := bind_ok.1 hrun
      cases hpure
      exact newCowChild_rights hchild
    | static v =>
      obtain rfl := eq_of_checked hx
      obtain ⟨u, _, hchild, hpure⟩ := bind_ok.1 hrun
      cases hpure
      exact congrArg TRights.toRights (static_newCowChild_rights hchild)

/-- The compiler has checked the set of a static `restrict`. -/
theorem setInclude_of_step {R1 : TRights}
    (h : step (w, .static v) (.restrictTo R1) = some (w', c')) :
    FlagList.setInclude v.rights.1 R1.1 = true := by
  obtain ⟨x, hx, -⟩ := step_eq_some h
  rw [CapOp.run, ite_none_right_eq_some] at hx
  exact hx.1

theorem lawful_of_step (h : step (w, c) op = some (w', c')) : op.Lawful c c' ↔ op.Exact c := by
  have hr := rights_of_step h
  cases op with
  | dup => exact iff_of_true (by rw [CapOp.Lawful, hr]; exact Rights.contains_refl _) trivial
  | sliceChild range flags =>
    exact iff_of_true (by rw [CapOp.Lawful, hr]; exact Rights.contains_refl _) trivial
  | restrict mask =>
    cases c with
    | dynamic v =>
      rw [CapOp.Lawful, hr]
      exact Rights.union_eq_inter_iff
    | static v => cases step_eq_some h with | intro x hx => cases hx.1
  | restrictTo R1 =>
    cases c with
    | dynamic v => cases step_eq_some h with | intro x hx => cases hx.1
    | static v =>
      refine iff_of_true ?_ trivial
      rw [CapOp.Lawful, hr]
      exact TRights.eq_inter_of_setInclude (setInclude_of_step h)
  | cowChild range flags =>
    cases c with
    | dynamic v =>
      rw [CapOp.Lawful, hr]
      refine Rights.eq_union_iff.trans ?_
      rw [Rights.contains_iff]
      constructor
      · exact fun hall => hall .write rfl
      · rintro hw (_ | _ | _ | _ | _) hf
        all_goals first | exact hw | cases hf
    | static v =>
      refine iff_of_true ?_ trivial
      rw [CapOp.Lawful, hr]
      exact TRights.toRights_extend v.rights .write

theorem contains_of_lawful (hop : op.KeepsRights) (h : op.Lawful c c') :
    c.rights.contains c'.rights = true := by
  cases op with
  | dup | sliceChild range flags => exact h
  | restrict mask | restrictTo R1 => rw [show c'.rights = _ from h]; exact Rights.contains_inter
  | cowChild range flags => exact hop.elim

/-- **What a derivation promises about rights holds iff the derivation is exact, and a chain of
exact derivations never gains a right.** -/
theorem lawful_iff_exact (s : World × Capability) :
    (∀ op s', lts.step s op s' → (op.Lawful s.2 s'.2 ↔ op.Exact s.2)) ∧
    ∀ s', (lts.restrict fun s op => op.Exact s.2 ∧ op.KeepsRights).Reachable s s' →
      s.2.rights.contains s'.2.rights = true := by
  refine ⟨fun op s' h => lawful_of_step h, fun s' hr => ?_⟩
  refine hr.invariant (P := fun t => s.2.rights.contains t.2.rights = true)
    (Rights.contains_refl _) ?_
  rintro ⟨w1, c1⟩ op ⟨w2, c2⟩ hc ⟨⟨hexact, hkeeps⟩, hs⟩
  exact Rights.contains_trans hc (contains_of_lawful hkeeps ((lawful_of_step hs).2 hexact))

/-- A root VMO of one page and nothing else. -/
def onePage : World := ⟨fun _ _ => 0, 0, fun _ => false, [{ size := pageSize }]⟩

/-- The rights to duplicate and to read. -/
def dupRead : Rights := { dup := true, read := true }

/-- A capability to the VMO of `onePage` that may be duplicated and read. -/
def reader : Capability := .dynamic ⟨0, dupRead⟩

theorem lawful_iff_exact_reader :
    ∃ s, Lts.run step (onePage, reader) [.dup, .restrict dupRead, .sliceChild ⟨0, 4096⟩ {}] =
        some s ∧
      reader.rights.contains s.2.rights = true ∧
      ((CapOp.restrict dupRead).Lawful reader reader ↔ (CapOp.restrict dupRead).Exact reader) := by
  have hdup : step (onePage, reader) .dup = some (onePage, reader) := rfl
  have hmask : step (onePage, reader) (.restrict dupRead) = some (onePage, reader) := rfl
  obtain ⟨s, hslice⟩ : ∃ s, step (onePage, reader) (.sliceChild ⟨0, 4096⟩ {}) = some s := ⟨_, rfl⟩
  have hreach : (lts.restrict fun s op => op.Exact s.2 ∧ op.KeepsRights).Reachable
      (onePage, reader) s :=
    .step (.step (.step (.refl _) (l := .dup) ⟨⟨trivial, trivial⟩, hdup⟩)
      (l := .restrict dupRead) ⟨⟨rfl, trivial⟩, hmask⟩)
      (l := .sliceChild ⟨0, 4096⟩ {}) ⟨⟨trivial, trivial⟩, hslice⟩
  exact ⟨s, hslice, (lawful_iff_exact _).2 _ hreach, (lawful_iff_exact _).1 _ _ hmask⟩

/-- **A mask takes nothing away and may add rights, and the copy-on-write child of a VMO that may
not be written may not be written.** -/
theorem exists_rights_gained :
    (∃ v, step (onePage, .dynamic ⟨0, .ofPred fun _ => true⟩) (.restrict dupRead) =
      some (onePage, .dynamic v) ∧ v.rights.write = true) ∧
    (∃ v, step (onePage, reader) (.restrict { write := true }) = some (onePage, .dynamic v) ∧
      v.rights = { dup := true, read := true, write := true }) ∧
    ∃ w' v, step (onePage, reader) (.cowChild ⟨0, 4096⟩ {}) = some (w', .dynamic v) ∧
      v.rights.write = false :=
  ⟨⟨_, rfl, rfl⟩, ⟨_, rfl, rfl⟩, ⟨_, _, rfl, rfl⟩⟩

end Capability

end Jinux
