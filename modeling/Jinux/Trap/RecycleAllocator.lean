import Mathlib.Data.List.Perm.Subperm
import Jinux.Kernel.Result
import Jinux.Lib.Lts

/-!
# The allocator of interrupt numbers

`RecycleAllocator` hands out numbers from a watermark upwards, and numbers that came back first.  A
number at or above the watermark can be asked for by name; it is then on the skip list, which the
watermark passes over.  A number that comes back before the watermark has passed it leaves the skip
list, and nothing else remembers it once it is handed out again.

* `IrqUse` : an allocator together with the numbers in use;
* `IrqUse.Inv` : what holds as long as only numbers below the watermark come back;
* `IrqUse.exists_handed_out_twice` : what happens otherwise.
-/

namespace Jinux

open List

/-- `RecycleAllocator` -/
structure RecycleAllocator where
  /-- The watermark. -/
  current : ℕ
  /-- The numbers that came back, the last one first. -/
  recycled : List ℕ := []
  /-- The numbers asked for by name, the last one first. -/
  skip : List ℕ := []
  max : ℕ
  deriving DecidableEq

namespace RecycleAllocator

/-- `with_start_max` -/
def withStartMax (start max : ℕ) : RecycleAllocator := { current := start, max }

/-- The loop of `alloc` over the skip list.  Its elements are below `max`, so that the addition does
not overflow, and each of them is met at most once. -/
def passSkip (skip : List ℕ) : ℕ → ℕ → ℕ
  | 0, current => current
  | n + 1, current => if current ∈ skip then passSkip skip n (current + 1) else current

/-- `alloc` -/
def alloc (a : RecycleAllocator) : Result (ℕ × RecycleAllocator) :=
  match a.recycled with
  | id :: recycled => .ok (id, { a with recycled })
  | [] => do
    let current := passSkip a.skip a.skip.length a.current
    if current = a.max then
      pure (usizeBound - 1, { a with current })
    else
      let next ← addUsize current 1
      pure (current, { a with current := next })

/-- `dealloc` -/
def dealloc (a : RecycleAllocator) (id : ℕ) : Result RecycleAllocator :=
  if id ∈ a.skip then
    .ok { a with skip := a.skip.filter (· ≠ id), recycled := id :: a.recycled }
  else do
    assert (id < a.current)
    assert (id ∉ a.recycled)
    pure { a with recycled := id :: a.recycled }

/-- `get_target` -/
def getTarget (a : RecycleAllocator) (target : ℕ) : Bool × RecycleAllocator :=
  if a.max ≤ target then (false, a)
  else if a.current ≤ target then
    if target ∈ a.skip then (false, a) else (true, { a with skip := target :: a.skip })
  else if target ∈ a.recycled then
    (true, { a with recycled := a.recycled.filter (· ≠ target) })
  else (false, a)

/-- The loop passes numbers of the skip list only, and it stops at one of them only if it has taken
all its rounds. -/
theorem passSkip_spec (skip : List ℕ) (n c : ℕ) :
    c ≤ passSkip skip n c ∧ (∀ x, c ≤ x → x < passSkip skip n c → x ∈ skip) ∧
      (passSkip skip n c ∈ skip → passSkip skip n c = c + n) := by
  fun_induction passSkip skip n c with
  | case1 c => exact ⟨le_rfl, fun x hx hlt => by omega, fun _ => rfl⟩
  | case2 c n hc ih => grind
  | case3 c n hc => exact ⟨le_rfl, fun x hx hlt => by omega, fun h => absurd h hc⟩

/-- There are more rounds than numbers to pass. -/
theorem passSkip_notMem (skip : List ℕ) (c : ℕ) : passSkip skip skip.length c ∉ skip := by
  intro hmem
  obtain ⟨-, hpassed, hend⟩ := passSkip_spec skip skip.length c
  have hsub : range' c (skip.length + 1) ⊆ skip := by
    intro x hx
    grind
  have hnodup : (range' c (skip.length + 1)).Nodup := nodup_range'
  have hlen := (subperm_of_subset hnodup hsub).length_le
  rw [length_range'] at hlen
  omega

end RecycleAllocator

/-! ### Runs -/

/-- An allocator and the numbers in use. -/
structure IrqUse where
  allocator : RecycleAllocator
  live : List ℕ := []
  deriving DecidableEq

/-- What users do. -/
inductive IrqOp where
  /-- `IrqLine::alloc` -/
  | alloc
  /-- `IrqLine::alloc_specific` -/
  | getTarget (target : ℕ)
  /-- The last handle of an `IrqLine` is dropped. -/
  | dealloc (id : ℕ)
  deriving DecidableEq

namespace IrqUse

open RecycleAllocator

/-- A number is in use from the call that returns it until it is given back.  A panic ends the
run. -/
def step (s : IrqUse) : IrqOp → Option IrqUse
  | .alloc =>
    match s.allocator.alloc with
    | .ok (id, a) => some ⟨a, if id = usizeBound - 1 then s.live else id :: s.live⟩
    | .error _ => none
  | .getTarget target =>
    let (given, a) := s.allocator.getTarget target
    some ⟨a, if given then target :: s.live else s.live⟩
  | .dealloc id =>
    if id ∈ s.live then
      match s.allocator.dealloc id with
      | .ok a => some ⟨a, s.live.filter (· ≠ id)⟩
      | .error _ => none
    else none

/-- The allocator with nothing in use. -/
def init (start max : ℕ) : IrqUse := ⟨withStartMax start max, []⟩

abbrev lts : Lts IrqUse IrqOp := .ofFun step

/-- No number comes back before the watermark has passed it. -/
def BelowWatermark (s : IrqUse) : IrqOp → Prop
  | .dealloc id => id < s.allocator.current
  | _ => True

instance (s : IrqUse) (op : IrqOp) : Decidable (s.BelowWatermark op) := by
  cases op <;> unfold BelowWatermark <;> infer_instance

/-- The numbers in use are below the watermark or on the skip list, and none has come back. -/
structure Inv (max : ℕ) (s : IrqUse) : Prop where
  bound : max < usizeBound
  eq_max : s.allocator.max = max
  current : s.allocator.current ≤ max
  skip : ∀ x ∈ s.allocator.skip, x < max ∧ x ∈ s.live
  recycled : ∀ x ∈ s.allocator.recycled, x < s.allocator.current ∧ x ∉ s.live
  nodup : s.allocator.recycled.Nodup
  live : ∀ x ∈ s.live, x < s.allocator.current ∨ x ∈ s.allocator.skip

variable {s s' : IrqUse} {start max : ℕ}

theorem inv_init (hle : start ≤ max) (hmax : max < usizeBound) : Inv max (init start max) :=
  ⟨hmax, rfl, hle, nofun, nofun, nodup_nil, nofun⟩

/-- `alloc` returns a number that is not in use, or the value for exhaustion. -/
theorem Inv.alloc (h : Inv max s) : ∃ id a, s.allocator.alloc = .ok (id, a) ∧ id ∉ s.live ∧
    (id < max ∨ id = usizeBound - 1) ∧
    Inv max ⟨a, if id = usizeBound - 1 then s.live else id :: s.live⟩ := by
  obtain ⟨⟨current, recycled, skip, bound⟩, live⟩ := s
  obtain ⟨hmax, heq, hcur, hskip, hback, hnodup, hlive⟩ := h
  subst heq
  dsimp only at *
  cases recycled with
  | cons id recycled =>
    have hlt := hback id mem_cons_self
    refine ⟨id, ⟨current, recycled, skip, bound⟩, rfl, hlt.2, Or.inl (by omega), ?_⟩
    constructor <;> grind
  | nil =>
    obtain ⟨hle, hpassed, -⟩ := passSkip_spec skip skip.length current
    have hno := passSkip_notMem skip current
    unfold RecycleAllocator.alloc
    generalize passSkip skip skip.length current = c at hle hpassed hno
    -- the bound is not on the skip list
    have hcmax : c ≤ bound := by
      by_contra hgt
      exact absurd (hskip _ (hpassed _ hcur (not_le.1 hgt))).1 (lt_irrefl _)
    by_cases hc : c = bound
    · refine ⟨usizeBound - 1, ⟨c, [], skip, bound⟩, if_pos hc, by grind, Or.inr rfl, ?_⟩
      constructor <;> grind
    · have hadd : addUsize c 1 = .ok (c + 1) := addUsize_ok.2 ⟨by omega, rfl⟩
      refine ⟨c, ⟨c + 1, [], skip, bound⟩, ?_, by grind, Or.inl (by omega), ?_⟩
      · simp only [if_neg hc, hadd]
        rfl
      · rw [if_neg (by omega)]
        constructor <;> grind

theorem Inv.getTarget (h : Inv max s) (target : ℕ) :
    ((s.allocator.getTarget target).1 = true → target ∉ s.live) ∧
    Inv max ⟨(s.allocator.getTarget target).2,
      if (s.allocator.getTarget target).1 then target :: s.live else s.live⟩ := by
  obtain ⟨hmax, hmax', hcur, hskip, hback, hnodup, hlive⟩ := h
  unfold RecycleAllocator.getTarget
  all_goals refine ⟨by grind, ?_⟩
  all_goals constructor <;> grind

theorem Inv.dealloc (h : Inv max s) {id : ℕ} (hid : id ∈ s.live) :
    ∃ a, s.allocator.dealloc id = .ok a ∧
      (id < s.allocator.current → Inv max ⟨a, s.live.filter (· ≠ id)⟩) := by
  obtain ⟨hmax, hmax', hcur, hskip, hback, hnodup, hlive⟩ := h
  have hno : id ∉ s.allocator.recycled := fun hx => (hback id hx).2 hid
  unfold RecycleAllocator.dealloc
  split_ifs with hid'
  · refine ⟨_, rfl, fun hlt => ?_⟩
    constructor <;> grind
  · refine ⟨{ s.allocator with recycled := id :: s.allocator.recycled }, ?_, fun hlt => ?_⟩
    · rw [assert_ok (u := ()).2 ((hlive id hid).resolve_right hid'), assert_ok (u := ()).2 hno]
      rfl
    · constructor <;> grind

theorem Inv.step {op : IrqOp} (h : Inv max s) (hop : s.BelowWatermark op)
    (hs : s.step op = some s') : Inv max s' := by
  cases op with
  | alloc =>
    obtain ⟨id, a, ha, -, -, h'⟩ := h.alloc
    simp only [IrqUse.step, ha] at hs
    cases hs
    exact h'
  | getTarget target =>
    cases hs
    exact (h.getTarget target).2
  | dealloc id =>
    simp only [IrqUse.step] at hs
    split_ifs at hs with hlive
    obtain ⟨a, ha, h'⟩ := h.dealloc hlive
    rw [ha] at hs
    cases hs
    exact h' hop

/-- **No number in use is handed out again** and none of the calls panics, as long as a number that
comes back is below the watermark. -/
theorem handed_out_once (hle : start ≤ max) (hmax : max < usizeBound)
    (hr : (lts.restrict BelowWatermark).Reachable (init start max) s) :
    (∃ id a, s.allocator.alloc = .ok (id, a) ∧ id ∉ s.live ∧
      (id < max ∨ id = usizeBound - 1)) ∧
    (∀ target, (s.allocator.getTarget target).1 = true → target ∉ s.live) ∧
    ∀ id ∈ s.live, ∃ a, s.allocator.dealloc id = .ok a := by
  have h : Inv max s := hr.invariant (inv_init hle hmax) fun _ _ _ hi hs => hi.step hs.1 hs.2
  obtain ⟨id, a, ha, hno, hlt, -⟩ := h.alloc
  exact ⟨⟨id, a, ha, hno, hlt⟩, fun target => (h.getTarget target).1,
    fun id hlive => (h.dealloc hlive).imp fun _ => And.left⟩

/-- Number 33 is asked for by name, the watermark passes it, and it comes back. -/
theorem handed_out_once_skipped : ∃ s, (lts.restrict BelowWatermark).Reachable (init 32 256) s ∧
    s.live = [34, 32] ∧
    (∃ id a, s.allocator.alloc = .ok (id, a) ∧ id ∉ s.live ∧
      (id < 256 ∨ id = usizeBound - 1)) ∧
    (∀ target, (s.allocator.getTarget target).1 = true → target ∉ s.live) ∧
    ∀ id ∈ s.live, ∃ a, s.allocator.dealloc id = .ok a := by
  obtain ⟨s, hr, hlive⟩ := Lts.exists_run_restrict step (init 32 256)
    [.getTarget 33, .alloc, .alloc, .dealloc 33] (fun s => s.live = [34, 32]) BelowWatermark
    (by decide +kernel)
  exact ⟨s, hr, hlive, handed_out_once (by decide) (by decide) hr⟩

/-- **A number that comes back before the watermark has passed it is handed out twice**: after two
more calls it is in use, `alloc` and `get_target` return it again, and giving it back panics. -/
theorem exists_handed_out_twice : ∃ s a, lts.Reachable (init 32 256) s ∧ 33 ∈ s.live ∧
    s.allocator.alloc = .ok (33, a) ∧ (s.allocator.getTarget 33).1 = true ∧
    s.allocator.dealloc 33 = .error (.panic .assertion) :=
  ⟨_, _, Lts.reachable_run (show Lts.run step (init 32 256)
    [.getTarget 33, .dealloc 33, .alloc, .alloc] = some _ from rfl), by decide, rfl, rfl, rfl⟩

end IrqUse

end Jinux
