import Jinux.Time.Coeff

/-!
# The clock source is monotone

An update writes the cycles and the instant one after the other, and a reader reads the counter, the
cycles and the instant one after the other.

* `Coeff.Fits` : the factor never makes a product overflow and never exceeds a second per cycle;
  `ClockSource.new` chooses such a factor;
* `ClockSystem.read_monotone` : **no call panics, and a call that begins after another one has
  returned returns no smaller instant**, in every run where no reader reads the counter during an
  update and no update stores while a reader is at it;
* `ClockSystem.exists_underflow`, `ClockSystem.exists_backwards` : what an update between two
  accesses of a reader can do.
-/

namespace Jinux

open Function Result Nat

universe u

/-! ### Coefficients -/

namespace Coeff

/-- The product with a coefficient. -/
def conv (c : Coeff) (rhs : ℕ) : ℕ := rhs * c.mult / 2 ^ c.shift

/-- No product overflows, and no cycle takes more than a second. -/
structure Fits (c : Coeff) : Prop where
  lt : ∀ rhs ≤ c.maxMultiplier, rhs * c.mult < usizeBound
  mult_le : c.mult ≤ nanosPerSecond * 2 ^ c.shift

variable {c : Coeff}

theorem Fits.mul_eq (h : c.Fits) {rhs : ℕ} (hrhs : rhs ≤ c.maxMultiplier) :
    c.mul rhs = .ok (c.conv rhs) := by
  have hlt := h.lt rhs hrhs
  simp only [mul, debugAssert, mulUsize, if_pos hrhs, if_pos hlt]
  rfl

theorem conv_mono (c : Coeff) {a b : ℕ} (h : a ≤ b) : c.conv a ≤ c.conv b :=
  Nat.div_le_div_right (Nat.mul_le_mul_right _ h)

theorem Fits.conv_le (h : c.Fits) (rhs : ℕ) : c.conv rhs ≤ rhs * nanosPerSecond := by
  refine Nat.div_le_of_le_mul ?_
  calc rhs * c.mult ≤ rhs * (nanosPerSecond * 2 ^ c.shift) := Nat.mul_le_mul_left _ h.mult_le
    _ = 2 ^ c.shift * (rhs * nanosPerSecond) := by ring

end Coeff

/-- The factor for the shift 1 is small enough: a high frequency makes it small, and with a low one
`max_multiplier` has at most 32 bits. -/
theorem ClockSource.factor_lt {freq delay : ℕ} (hfreq : 0 < freq) (hdelay : delay < 600)
    (hmax : delay * freq < 2 ^ 40) :
    Coeff.factor nanosPerSecond freq 1 < 2 ^ (32 - (delay * freq / 2 ^ 32).size) := by
  rw [Coeff.factor, div_lt_iff_lt_mul hfreq, nanosPerSecond]
  rcases Nat.eq_zero_or_pos (delay * freq / 2 ^ 32) with hzero | hpos
  · rw [hzero, size_zero]
    omega
  · have hsize : (delay * freq / 2 ^ 32).size ≤ 8 := size_le.2 (by omega)
    have hhigh : 2 ^ 32 ≤ 600 * freq :=
      le_trans (by omega) (mul_le_mul_right freq hdelay.le)
    refine lt_of_lt_of_le ?_ (Nat.mul_le_mul_right _ (Nat.pow_le_pow_right Nat.two_pos
      (Nat.sub_le_sub_left hsize 32)))
    omega

theorem ClockSource.factor_le {a f : ℕ} (ha : 0 < a) (hf : 0 < f) : (a + f / 2) / f ≤ a := by
  refine Nat.div_le_of_le_mul ?_
  obtain ⟨f, rfl⟩ := Nat.exists_eq_succ_of_ne_zero hf.ne'
  have hmul : f * 1 ≤ f * a := mul_le_mul_left f ha
  rw [succ_mul]
  omega

/-- The factor of a clock source. -/
theorem ClockSource.fits_of_new {freq maxDelaySecs : ℕ} {cs : ClockSource}
    (h : ClockSource.new freq maxDelaySecs = .ok cs) : cs.coeff.Fits := by
  obtain ⟨_, hdelay, h⟩ := bind_ok.1 h
  obtain ⟨m, hm, h⟩ := bind_ok.1 h
  obtain ⟨coeff, hcoeff, h⟩ := bind_ok.1 h
  cases h
  obtain ⟨-, rfl⟩ := mulUsize_ok.1 hm
  obtain ⟨_, hmax, hsome⟩ := bind_ok.1 hcoeff
  rw [debugAssert_ok] at hdelay hmax
  split_ifs at hsome with hzero
  have hfreq : 0 < freq := pos_of_ne_zero hzero
  -- the first sum of the search is the largest
  obtain ⟨_, hsearch, -⟩ := bind_ok.1 hsome
  obtain ⟨_, hadd, -⟩ := bind_ok.1 hsearch
  obtain ⟨shift, hnew, hlt⟩ := Coeff.new_eq hfreq hmax (addUsize_ok.1 hadd).1
    (ClockSource.factor_lt hfreq hdelay hmax)
  rw [hnew] at hcoeff
  cases hcoeff
  exact ⟨hlt, ClockSource.factor_le (Nat.mul_pos (by decide) (Nat.two_pow_pos shift)) hfreq⟩

/-! ### Instants -/

namespace Instant

/-- The nanoseconds are less than a second. -/
def Normal (t : Instant) : Prop := t.nanos.toNat < nanosPerSecond

/-- An instant made of a number of seconds and a number of nanoseconds. -/
theorem mk_spec {secs nanos : ℕ} (hsecs : secs < usizeBound) (hnanos : nanos < nanosPerSecond) :
    (Instant.mk (UInt64.ofNat secs) (UInt32.ofNat nanos)).toNanos = secs * nanosPerSecond + nanos ∧
      (Instant.mk (UInt64.ofNat secs) (UInt32.ofNat nanos)).Normal := by
  have hn : (UInt32.ofNat nanos).toNat = nanos :=
    UInt32.toNat_ofNat_of_lt' (lt_trans hnanos (by decide))
  rw [toNanos, Normal, UInt64.toNat_ofNat_of_lt' hsecs, hn]
  exact ⟨rfl, hnanos⟩

theorem addNanos_spec {t : Instant} {n : ℕ} (ht : t.Normal)
    (hlt : t.toNanos + n < usizeBound * nanosPerSecond) :
    ∃ r, t.addNanos n = .ok r ∧ r.toNanos = t.toNanos + n ∧ r.Normal := by
  simp only [Normal, toNanos, usizeBound, nanosPerSecond] at ht hlt
  have hsecs : t.secs.toNat + n / nanosPerSecond < usizeBound := by
    simp only [usizeBound, nanosPerSecond]
    omega
  have hnanos : ¬ 2 ^ 32 ≤ t.nanos.toNat + n % nanosPerSecond := by
    simp only [nanosPerSecond]
    omega
  simp only [addNanos, addUsize, if_pos hsecs, if_neg hnanos, bind, Except.bind]
  by_cases hcarry : nanosPerSecond ≤ t.nanos.toNat + n % nanosPerSecond
  · have hover : t.secs.toNat + n / nanosPerSecond + 1 < usizeBound := by
      simp only [usizeBound, nanosPerSecond] at hcarry ⊢
      omega
    have hrest : t.nanos.toNat + n % nanosPerSecond - nanosPerSecond < nanosPerSecond := by
      simp only [nanosPerSecond]
      omega
    rw [if_pos hcarry, if_pos hover]
    obtain ⟨hmk, hnormal⟩ := mk_spec hover hrest
    refine ⟨_, rfl, hmk.trans ?_, hnormal⟩
    simp only [toNanos, nanosPerSecond] at hcarry ⊢
    omega
  · rw [if_neg hcarry]
    obtain ⟨hmk, hnormal⟩ := mk_spec hsecs (not_le.1 hcarry)
    refine ⟨_, rfl, hmk.trans ?_, hnormal⟩
    simp only [toNanos, nanosPerSecond]
    omega

end Instant

/-! ### What holds in every state -/

namespace ClockSystem

variable {ι : Type u} {cs : ClockSource}

/-- No reader reads the counter during an update, and no update stores while a reader is at it. -/
def Undisturbed (s : ClockSystem ι) : Act ι → Prop
  | .startRead _ _ => s.updater = .idle
  | .update =>
    match s.updater with
    | .computed _ _ | .storedCycles _ => ∀ i, s.readers i = .idle
    | _ => True
  | _ => True

/-- The instant that goes with `last_cycles`. -/
def base (s : ClockSystem ι) : Instant :=
  match s.updater with
  | .storedCycles instant => instant
  | _ => s.lastInstant

/-- The latest value of the counter that a reader in progress can have. -/
def horizon (s : ClockSystem ι) : ℕ :=
  match s.updater with
  | .sampled cycles | .converted cycles _ | .computed cycles _ => cycles
  | _ => s.now

/-- The nanoseconds of the instant for a value of the counter. -/
def nanosAt (cs : ClockSource) (s : ClockSystem ι) (cycles : ℕ) : ℕ :=
  s.base.toNanos + cs.coeff.conv (cycles - s.lastCycles)

/-- What holds for a call of `read_instant`. -/
def ReaderOk (cs : ClockSource) (s : ClockSystem ι) : ReadPc → Prop
  | .idle => True
  | .sampled before cycles => s.lastCycles ≤ cycles ∧ cycles ≤ s.horizon ∧
      cycles ≤ s.lastCycles + cs.coeff.maxMultiplier ∧
      ∀ t ∈ before, t.toNanos ≤ s.nanosAt cs cycles
  | .converted before nanos => s.base.toNanos + nanos ≤ s.nanosAt cs s.horizon ∧
      ∀ t ∈ before, t.toNanos ≤ s.base.toNanos + nanos

/-- What holds for the updater. -/
def UpdaterOk (cs : ClockSource) (s : ClockSystem ι) : UpdatePc → Prop
  | .idle => True
  | .sampled cycles => cycles ≤ s.lastCycles + cs.coeff.maxMultiplier
  | .converted cycles nanos => nanos = cs.coeff.conv (cycles - s.lastCycles)
  | .computed cycles instant => instant.Normal ∧ instant.toNanos = s.nanosAt cs cycles
  | .storedCycles _ => ∀ i, s.readers i = .idle

/-- What holds in every state. -/
structure Inv (cs : ClockSource) (s : ClockSystem ι) : Prop where
  normal : s.base.Normal
  base_le : s.base.toNanos ≤ s.lastCycles * nanosPerSecond
  last_le : s.lastCycles ≤ s.horizon
  horizon_le : s.horizon ≤ s.now
  now_lt : s.now < usizeBound
  reader : ∀ i, s.ReaderOk cs (s.readers i)
  updater : s.UpdaterOk cs s.updater
  /-- No call has returned more than a call would return now. -/
  returned : ∀ t ∈ s.returned, t.toNanos ≤ s.nanosAt cs s.horizon
  calls : ∀ c ∈ s.calls, ∀ t ∈ c.1, t.toNanos ≤ c.2.toNanos
  panicked : s.panicked = none

variable {s s' : ClockSystem ι}

theorem nanosAt_mono {a b : ℕ} (h : a ≤ b) : s.nanosAt cs a ≤ s.nanosAt cs b :=
  Nat.add_le_add_left (cs.coeff.conv_mono (Nat.sub_le_sub_right h _)) _

variable {cycles nanos : ℕ} {instant : Instant} {pc : UpdatePc}

/-- No instant that a call computes overflows. -/
theorem Inv.nanosAt_lt (h : Inv cs s) (hfit : cs.coeff.Fits) (hlast : s.lastCycles ≤ cycles)
    (hlt : cycles < usizeBound) : s.nanosAt cs cycles ≤ cycles * nanosPerSecond ∧
      s.nanosAt cs cycles < usizeBound * nanosPerSecond := by
  have hconv := hfit.conv_le (cycles - s.lastCycles)
  have hbase := h.base_le
  have hle : s.nanosAt cs cycles ≤ cycles * nanosPerSecond := by
    calc s.nanosAt cs cycles
        ≤ s.lastCycles * nanosPerSecond + (cycles - s.lastCycles) * nanosPerSecond :=
          Nat.add_le_add hbase hconv
      _ = cycles * nanosPerSecond := by rw [← Nat.add_mul, Nat.add_sub_cancel' hlast]
  exact ⟨hle, lt_of_le_of_lt hle (mul_lt_mul_of_pos_right hlt (by decide))⟩

/-- The cycles since the last update are turned into nanoseconds. -/
theorem deltaNanos_eq (hfit : cs.coeff.Fits) (hlast : s.lastCycles ≤ cycles)
    (hle : cycles ≤ s.lastCycles + cs.coeff.maxMultiplier) :
    s.deltaNanos cs cycles = .ok (cs.coeff.conv (cycles - s.lastCycles)) := by
  simp only [deltaNanos, subUsize, if_pos hlast]
  exact hfit.mul_eq (by omega)

/-- What holds for a call goes on holding while the clock source stays and the horizon moves on. -/
theorem ReaderOk.mono {pc : ReadPc} (h : s.ReaderOk cs pc) (hbase : s'.base = s.base)
    (hlast : s'.lastCycles = s.lastCycles) (hle : s.horizon ≤ s'.horizon) : s'.ReaderOk cs pc := by
  have hat : ∀ cycles, s'.nanosAt cs cycles = s.nanosAt cs cycles := by
    intro cycles
    rw [nanosAt, nanosAt, hbase, hlast]
  cases pc with
  | idle => trivial
  | sampled before cycles =>
    obtain ⟨h1, h2, h3, h4⟩ := h
    refine ⟨hlast ▸ h1, h2.trans hle, hlast ▸ h3, ?_⟩
    rw [hat]
    exact h4
  | converted before nanos =>
    obtain ⟨h1, h2⟩ := h
    rw [ReaderOk, hbase, hat]
    exact ⟨h1.trans (nanosAt_mono hle), h2⟩

/-! ### The steps of the readers -/

/-- A reader is never at it while the updater stores. -/
theorem Inv.not_stored {i : ι} (h : Inv cs s) (hi : s.readers i ≠ .idle) (instant : Instant) :
    s.updater ≠ .storedCycles instant := by
  intro hupd
  have hall := h.updater
  rw [hupd] at hall
  exact hi (hall i)

/-- What holds for the updater does not depend on the readers while it does not store. -/
theorem UpdaterOk.of_readers (h : s.UpdaterOk cs pc) (hpc : ∀ instant, pc ≠ .storedCycles instant)
    (hbase : s'.base = s.base) (hlast : s'.lastCycles = s.lastCycles) : s'.UpdaterOk cs pc := by
  cases pc with
  | idle => trivial
  | sampled cycles | converted cycles nanos =>
    rw [UpdaterOk, hlast]
    exact h
  | computed cycles instant =>
    rw [UpdaterOk, nanosAt, hbase, hlast]
    exact h
  | storedCycles instant => exact absurd rfl (hpc instant)

section Readers

variable [DecidableEq ι] {i : ι} {before : List Instant}

theorem Inv.startRead (h : Inv cs s) (hidle : s.updater = .idle) (hcan : s.CanRead cs cycles) :
    Inv cs { s with
      now := cycles, readers := update s.readers i (.sampled s.returned cycles) } := by
  obtain ⟨hnow, hlt, hle⟩ := hcan
  have hhorizon : s.horizon = s.now := by rw [horizon, hidle]
  have hhorizon' : horizon { s with
      now := cycles, readers := update s.readers i (.sampled s.returned cycles) } =
        cycles := by rw [horizon, hidle]
  have hmove : s.horizon ≤ cycles := hhorizon ▸ hnow
  have hlast : s.lastCycles ≤ cycles := h.last_le.trans hmove
  have hreturned : ∀ t ∈ s.returned, t.toNanos ≤ s.nanosAt cs cycles :=
    fun t ht => (h.returned t ht).trans (nanosAt_mono hmove)
  refine ⟨h.normal, h.base_le, ?_, ?_, hlt,
    (forall_update_iff s.readers fun _ => ReaderOk cs _).2 ⟨?_, fun j _ => ?_⟩, ?_, ?_,
    h.calls, h.panicked⟩
  · rw [hhorizon']
    exact hlast
  · rw [hhorizon']
  · exact ⟨hlast, hhorizon'.ge, hle, hreturned⟩
  · exact (h.reader j).mono rfl rfl (by rw [hhorizon']; exact hmove)
  · exact h.updater.of_readers (by rw [hidle]; nofun) rfl rfl
  · rw [hhorizon']
    exact hreturned

theorem Inv.readCycles (h : Inv cs s) (hfit : cs.coeff.Fits)
    (hi : s.readers i = .sampled before cycles) : ∃ nanos, s.deltaNanos cs cycles = .ok nanos ∧
      Inv cs { s with readers := update s.readers i (.converted before nanos) } := by
  have hok := h.reader i
  rw [hi] at hok
  obtain ⟨hlast, hhorizon, hle, hbefore⟩ := hok
  refine ⟨_, deltaNanos_eq hfit hlast hle, h.normal, h.base_le, h.last_le, h.horizon_le, h.now_lt,
    (forall_update_iff s.readers fun _ => ReaderOk cs _).2 ⟨?_, fun j _ => h.reader j⟩,
    ?_, h.returned, h.calls, h.panicked⟩
  · exact ⟨nanosAt_mono hhorizon, hbefore⟩
  · exact h.updater.of_readers (h.not_stored (by rw [hi]; nofun)) rfl rfl

theorem Inv.readInstant (h : Inv cs s) (hfit : cs.coeff.Fits)
    (hi : s.readers i = .converted before nanos) :
    ∃ instant, s.lastInstant.addNanos nanos = .ok instant ∧ Inv cs { s with
      readers := update s.readers i .idle
      returned := instant :: s.returned
      calls := (before, instant) :: s.calls } := by
  have hok := h.reader i
  rw [hi] at hok
  obtain ⟨hle, hbefore⟩ := hok
  have hnot := h.not_stored (show s.readers i ≠ .idle by rw [hi]; nofun)
  have hbase : s.base = s.lastInstant := by
    unfold base
    split
    · next instant hupd => exact absurd hupd (hnot instant)
    · rfl
  have hlt := (h.nanosAt_lt hfit h.last_le (lt_of_le_of_lt h.horizon_le h.now_lt)).2
  rw [hbase] at hle hbefore
  obtain ⟨instant, hadd, hsum, -⟩ := Instant.addNanos_spec (hbase ▸ h.normal)
    (lt_of_le_of_lt hle hlt)
  refine ⟨instant, hadd, h.normal, h.base_le, h.last_le, h.horizon_le, h.now_lt,
    (forall_update_iff s.readers fun _ => ReaderOk cs _).2
      ⟨trivial, fun j _ => h.reader j⟩, ?_, fun t ht => ?_, fun c hc => ?_, h.panicked⟩
  · exact h.updater.of_readers hnot rfl rfl
  · rcases List.mem_cons.1 ht with rfl | ht
    · rw [hsum]
      exact hle
    · exact h.returned t ht
  · rcases List.mem_cons.1 hc with rfl | hc
    · intro t ht
      rw [hsum]
      exact hbefore t ht
    · exact h.calls c hc

end Readers

/-! ### The steps of the updater -/

theorem Inv.startUpdate (h : Inv cs s) (hidle : s.updater = .idle) (hcan : s.CanRead cs cycles) :
    Inv cs { s with now := cycles, updater := .sampled cycles } := by
  obtain ⟨hnow, hlt, hle⟩ := hcan
  have hmove : s.horizon ≤ cycles := by
    rw [horizon, hidle]
    exact hnow
  have hbase : base { s with now := cycles, updater := .sampled cycles } = s.base := by
    rw [base, base, hidle]
  have hat : ∀ c, nanosAt cs { s with now := cycles, updater := .sampled cycles } c =
      s.nanosAt cs c := by
    intro c
    rw [nanosAt, nanosAt, hbase]
  refine ⟨hbase ▸ h.normal, hbase ▸ h.base_le, h.last_le.trans hmove, le_rfl, hlt,
    fun j => (h.reader j).mono hbase rfl hmove, hle, fun t ht => ?_, h.calls, h.panicked⟩
  rw [hat]
  exact (h.returned t ht).trans (nanosAt_mono hmove)

/-- The updater goes on without a store. -/
theorem Inv.setUpdater (h : Inv cs s) (hbase : base { s with updater := pc } = s.base)
    (hhorizon : horizon { s with updater := pc } = s.horizon)
    (hok : UpdaterOk cs { s with updater := pc } pc) : Inv cs { s with updater := pc } := by
  have hat : ∀ c, nanosAt cs { s with updater := pc } c = s.nanosAt cs c := by
    intro c
    rw [nanosAt, nanosAt, hbase]
  refine ⟨hbase ▸ h.normal, hbase ▸ h.base_le, hhorizon ▸ h.last_le, hhorizon ▸ h.horizon_le,
    h.now_lt, fun j => (h.reader j).mono hbase rfl hhorizon.ge, hok, fun t ht => ?_, h.calls,
    h.panicked⟩
  rw [hat, hhorizon]
  exact h.returned t ht

theorem Inv.updateCycles (h : Inv cs s) (hfit : cs.coeff.Fits)
    (hupd : s.updater = .sampled cycles) : ∃ nanos, s.deltaNanos cs cycles = .ok nanos ∧
      Inv cs { s with updater := .converted cycles nanos } := by
  have hhorizon : s.horizon = cycles := by rw [horizon, hupd]
  have hok := h.updater
  rw [hupd] at hok
  refine ⟨_, deltaNanos_eq hfit (hhorizon ▸ h.last_le) hok, h.setUpdater ?_ ?_ rfl⟩
  · rw [base, base, hupd]
  · rw [horizon, hhorizon]

theorem Inv.updateInstant (h : Inv cs s) (hfit : cs.coeff.Fits)
    (hupd : s.updater = .converted cycles nanos) :
    ∃ instant, s.lastInstant.addNanos nanos = .ok instant ∧
      Inv cs { s with updater := .computed cycles instant } := by
  have hhorizon : s.horizon = cycles := by rw [horizon, hupd]
  have hbase : s.base = s.lastInstant := by rw [base, hupd]
  have hok := h.updater
  rw [hupd] at hok
  cases hok
  have hlt := (h.nanosAt_lt hfit h.last_le (lt_of_le_of_lt h.horizon_le h.now_lt)).2
  rw [hhorizon, nanosAt, hbase] at hlt
  obtain ⟨instant, hadd, hsum, hnormal⟩ := Instant.addNanos_spec (hbase ▸ h.normal) hlt
  exact ⟨instant, hadd, h.setUpdater hbase.symm (by rw [horizon, hhorizon]) ⟨hnormal, hsum⟩⟩

theorem Inv.storeCycles (h : Inv cs s) (hfit : cs.coeff.Fits)
    (hupd : s.updater = .computed cycles instant) (hidle : ∀ i, s.readers i = .idle) :
    Inv cs { s with lastCycles := cycles, updater := .storedCycles instant } := by
  have hhorizon : s.horizon = cycles := by rw [horizon, hupd]
  have hok := h.updater
  rw [hupd] at hok
  obtain ⟨hnormal, hinstant⟩ := hok
  have hle := h.horizon_le
  have hlast := h.last_le
  rw [hhorizon] at hle hlast
  refine ⟨hnormal, ?_, hle, le_rfl, h.now_lt, fun j => ?_, hidle, fun t ht => ?_, h.calls,
    h.panicked⟩
  · exact hinstant.trans_le (h.nanosAt_lt hfit hlast (lt_of_le_of_lt hle h.now_lt)).1
  · show ReaderOk cs _ (s.readers j)
    rw [hidle j]
    trivial
  · -- all that was returned is at most the new instant
    have hreturned := h.returned t ht
    rw [hhorizon, ← hinstant] at hreturned
    exact hreturned.trans (le_add_right _ _)

theorem Inv.storeInstant (h : Inv cs s) (hupd : s.updater = .storedCycles instant) :
    Inv cs { s with lastInstant := instant, updater := .idle } := by
  have hbase : s.base = instant := by rw [base, hupd]
  have hhorizon : s.horizon = s.now := by rw [horizon, hupd]
  have hidle := h.updater
  rw [hupd] at hidle
  have hat : ∀ c, nanosAt cs { s with lastInstant := instant, updater := .idle } c =
      s.nanosAt cs c := by
    intro c
    rw [nanosAt, nanosAt, hbase, base]
  refine ⟨hbase ▸ h.normal, hbase ▸ h.base_le, hhorizon ▸ h.last_le, le_rfl, h.now_lt, fun j => ?_,
    trivial, fun t ht => ?_, h.calls, h.panicked⟩
  · show ReaderOk cs _ (s.readers j)
    rw [hidle j]
    trivial
  · rw [hat]
    exact hhorizon ▸ h.returned t ht

/-! ### All runs -/

variable [DecidableEq ι]

theorem Inv.step {a : Act ι} (h : Inv cs s) (hfit : cs.coeff.Fits) (ha : s.Undisturbed a)
    (hs : s.step cs a = some s') : Inv cs s' := by
  obtain ⟨-, hs⟩ := Option.ite_none_right_eq_some.1 hs
  cases a with
  | startRead i cycles =>
    obtain ⟨⟨-, hcan⟩, ⟨⟩⟩ := Option.ite_none_right_eq_some.1 hs
    exact h.startRead ha hcan
  | read i =>
    simp only [exec] at hs
    cases hi : s.readers i with
    | idle =>
      rw [hi] at hs
      cases hs
    | sampled before cycles =>
      obtain ⟨nanos, hdelta, h'⟩ := h.readCycles hfit hi
      rw [hi] at hs
      simp only [hdelta] at hs
      cases hs
      exact h'
    | converted before nanos =>
      obtain ⟨instant, hadd, h'⟩ := h.readInstant hfit hi
      rw [hi] at hs
      simp only [hadd] at hs
      cases hs
      exact h'
  | startUpdate cycles =>
    obtain ⟨⟨hidle, hcan⟩, ⟨⟩⟩ := Option.ite_none_right_eq_some.1 hs
    exact h.startUpdate hidle hcan
  | update =>
    simp only [exec] at hs
    simp only [Undisturbed] at ha
    cases hupd : s.updater with
    | idle =>
      rw [hupd] at hs
      cases hs
    | sampled cycles =>
      obtain ⟨nanos, hdelta, h'⟩ := h.updateCycles hfit hupd
      rw [hupd] at hs
      simp only [hdelta] at hs
      cases hs
      exact h'
    | converted cycles nanos =>
      obtain ⟨instant, hadd, h'⟩ := h.updateInstant hfit hupd
      rw [hupd] at hs
      simp only [hadd] at hs
      cases hs
      exact h'
    | computed cycles instant =>
      rw [hupd] at hs ha
      cases hs
      exact h.storeCycles hfit hupd ha
    | storedCycles instant =>
      rw [hupd] at hs
      cases hs
      exact h.storeInstant hupd

omit [DecidableEq ι] in
theorem inv_calibrated (hlt : cycles < usizeBound) :
    Inv cs (calibrated cycles : ClockSystem ι) := by
  have hzero : (calibrated cycles : ClockSystem ι).base.toNanos = 0 := by
    simp [base, calibrated, Instant.zero, Instant.toNanos]
  refine ⟨show 0 < nanosPerSecond by simp [nanosPerSecond], hzero ▸ zero_le _, le_rfl, le_rfl,
    hlt, fun _ => trivial, trivial, ?_, ?_, rfl⟩ <;> nofun

/-- **No call of `read_instant` panics, and a call that begins after another one has returned
returns no smaller instant**, in every run where no reader reads the counter during an update and no
update stores while a reader is at it. -/
theorem read_monotone {freq maxDelaySecs cycles : ℕ}
    (hnew : ClockSource.new freq maxDelaySecs = .ok cs) (hlt : cycles < usizeBound)
    (hr : ((lts cs).restrict Undisturbed).Reachable (calibrated cycles : ClockSystem ι) s) :
    s.panicked = none ∧ ∀ c ∈ s.calls, ∀ t ∈ c.1, t.toNanos ≤ c.2.toNanos := by
  have hfit := ClockSource.fits_of_new hnew
  have h : Inv cs s := hr.invariant (inv_calibrated hlt) fun _ _ _ h hs => h.step hfit hs.1 hs.2
  exact ⟨h.panicked, h.calls⟩

/-! ### A counter of one gigahertz -/

/-- A clock source for one gigahertz. -/
def gigahertz : ClockSource := ⟨1000000000, 100, ⟨2 ^ 26, 26, 100000000000⟩⟩

theorem gigahertz_new : ClockSource.new 1000000000 100 = .ok gigahertz :=
  ok_of_toOption (by decide +kernel)

instance (s : ClockSystem (Fin 2)) (a : Act (Fin 2)) : Decidable (s.Undisturbed a) :=
  match a with
  | .startRead _ _ => inferInstanceAs (Decidable (_ = _))
  | .read _ | .startUpdate _ => inferInstanceAs (Decidable True)
  | .update =>
    match hupd : s.updater with
    | .idle | .sampled _ | .converted _ _ => decidable_of_iff True (by simp [Undisturbed, hupd])
    | .computed _ _ | .storedCycles _ =>
      decidable_of_iff (∀ i, s.readers i = .idle) (by simp [Undisturbed, hupd])

/-- Two readers, one after the other, with an update in between. -/
theorem read_monotone_two : ∃ s : ClockSystem (Fin 2),
    ((lts gigahertz).restrict Undisturbed).Reachable (calibrated 0) s ∧ s.calls.length = 2 ∧
      ∀ c ∈ s.calls, ∀ t ∈ c.1, t.toNanos ≤ c.2.toNanos := by
  obtain ⟨s, hr, hlen⟩ := Lts.exists_run_restrict (step gigahertz)
    (calibrated 0 : ClockSystem (Fin 2))
    [.startRead 0 20, .read 0, .read 0, .startUpdate 30, .update, .update, .update, .update,
      .startRead 1 31, .read 1, .read 1]
    (fun s => s.calls.length = 2) Undisturbed (by decide +kernel)
  exact ⟨s, hr, hlen, (read_monotone gigahertz_new (by decide) hr).2⟩

/-- A reader has read the counter; then an update stores a later value of it. -/
theorem exists_underflow : ∃ s : ClockSystem (Fin 2),
    ClockSource.new 1000000000 100 = .ok gigahertz ∧
    (lts gigahertz).Reachable (calibrated 0) s ∧ s.panicked = some .subOverflow := by
  obtain ⟨s, hr, hpanic⟩ := Lts.exists_run (step gigahertz) (calibrated 0 : ClockSystem (Fin 2))
    [.startRead 0 10, .startUpdate 20, .update, .update, .update, .update, .read 0]
    (fun s => s.panicked = some .subOverflow) (by decide +kernel)
  exact ⟨s, gigahertz_new, hr, hpanic⟩

/-- An update between the two locked accesses of a reader: the reader adds the cycles since the last
update to the instant of the new one, and the next call returns less. -/
theorem exists_backwards : ∃ s : ClockSystem (Fin 2), (lts gigahertz).Reachable (calibrated 0) s ∧
    ∃ c ∈ s.calls, ∃ t ∈ c.1, c.2.toNanos < t.toNanos :=
  Lts.exists_run (step gigahertz) (calibrated 0)
    [.startRead 0 20, .read 0, .startUpdate 30, .update, .update, .update, .update, .read 0,
      .startRead 1 31, .read 1, .read 1] _ (by decide +kernel)

end ClockSystem

end Jinux
