import PoundDreverHall.Device.Triple

/-!
# Devices - interleaved programs

Several programs use one device at the same time.  Each operation is a step of the device, and
between two operations of one program the others may perform any of theirs, so an interleaving is a
trace whose events carry the names of the programs.

Main results:

- Definition {lit}`side`: the trace of one program in an interleaving.
- Theorem {lit}`interleaved_get`: a part of the state that some operations overwrite is in the end
  what the last of them wrote.
- Theorem {lit}`performs_simulate` and theorem {lit}`follows_simulate`: a device that computes its
  responses runs the programs in the order of a schedule.
-/

namespace Device

open Program

variable {ι ε : Type} [DecidableEq ι]

/-! ## Sides -/

/-- The events of one program. -/
def side (i : ι) (tr : List (ι × ε)) : List ε :=
  (tr.filter fun e => e.1 = i).map Prod.snd

@[simp]
theorem side_nil (i : ι) : side i ([] : List (ι × ε)) = [] :=
  rfl

@[simp]
theorem side_cons_self (i : ι) (e : ε) (tr : List (ι × ε)) :
    side i ((i, e) :: tr) = e :: side i tr := by
  simp [side]

@[simp]
theorem side_cons_of_ne {i j : ι} (h : j ≠ i) (e : ε) (tr : List (ι × ε)) :
    side i ((j, e) :: tr) = side i tr := by
  simp [side, h]

/-- An event is on the side that it is labelled with. -/
theorem mem_side {i : ι} {e : ε} {tr : List (ι × ε)} : e ∈ side i tr ↔ (i, e) ∈ tr := by
  simp [side]

/-! ## The last writer -/

/-- The program of the last event with a property. -/
def lastWriter (p : ε → Bool) (tr : List (ι × ε)) : Option ι :=
  ((tr.filter fun e => p e.2).getLast?).map Prod.fst

/-- There is a last event with a property if some program has one. -/
theorem exists_lastWriter {p : ε → Bool} {tr : List (ι × ε)} {i : ι} {e : ε}
    (he : e ∈ side i tr) (hp : p e = true) : ∃ j, lastWriter p tr = some j := by
  have hmem : (i, e) ∈ tr.filter fun e => p e.2 := List.mem_filter.mpr ⟨mem_side.mp he, hp⟩
  have hsome : (tr.filter fun e => p e.2).getLast?.isSome = true := by
    rw [List.getLast?_isSome]
    exact List.ne_nil_of_mem hmem
  rcases Option.isSome_iff_exists.mp hsome with ⟨e', hlast⟩
  exact ⟨e'.1, by rw [lastWriter, hlast, Option.map_some]⟩

section Writes

variable {χ : Type} {write : ε → Option χ}

/-- The last write, with the first event apart. -/
theorem getLast?_filterMap_cons (e : ε) (tr : List ε) (x : χ) :
    (((e :: tr).filterMap write).getLast?).getD x =
      ((tr.filterMap write).getLast?).getD ((write e).getD x) := by
  cases hwrite : write e with
  | none => simp [hwrite]
  | some y => simp [hwrite, List.getLast?_cons]

/-- When every program writes one value only, the last value is that of the last writer. -/
theorem getLast?_filterMap_side {tr : List (ι × ε)} {v : ι → χ}
    (hwrite : ∀ i, ∀ e ∈ side i tr, ∀ x, write e = some x → x = v i) :
    ((tr.map Prod.snd).filterMap write).getLast? =
      (lastWriter (fun e => (write e).isSome) tr).map v := by
  have hvalues : (tr.map Prod.snd).filterMap write =
      (tr.filter fun e => (write e.2).isSome).map fun e => v e.1 := by
    induction tr with
    | nil => rfl
    | cons e tr ih =>
        have hrest := ih fun i e' he' => hwrite i e' (mem_side.mpr (List.mem_cons_of_mem _
          (mem_side.mp he')))
        rw [List.map_cons, List.filterMap_cons, hrest]
        cases hx : write e.2 with
        | none => simp [hx]
        | some x =>
            have hv := hwrite e.1 e.2 (mem_side.mpr List.mem_cons_self) x hx
            simp [hx, hv]
  rw [hvalues, List.getLast?_map, lastWriter, Option.map_map]
  rfl

end Writes

/-! ## Steps of the device -/

variable {O : Type} {R : O → Type} {σ α χ : Type} {D : Machine R σ}

section State

variable {get : σ → χ} {write : ((o : O) × R o) → Option χ} {Good : ((o : O) × R o) → Prop}
  (hD : ∀ s o r s', Good ⟨o, r⟩ → D s o r s' → get s' = (write ⟨o, r⟩).getD (get s))

include hD

/-- A part of the state after a trace is what was written last. -/
theorem Follows.get_eq {s s' : σ} {tr : List ((o : O) × R o)} (h : Follows D s tr s')
    (hgood : ∀ e ∈ tr, Good e) : get s' = ((tr.filterMap write).getLast?).getD (get s) := by
  induction h with
  | nil s => rfl
  | cons first rest ih =>
      rw [ih fun e he => hgood e (List.mem_cons_of_mem _ he), getLast?_filterMap_cons,
        hD _ _ _ _ (hgood _ List.mem_cons_self) first]

/-- After an interleaving it is what the last writer wrote. -/
theorem interleaved_get {s s' : σ} {tr : List (ι × ((o : O) × R o))}
    (h : Follows D s (tr.map Prod.snd) s') (hgood : ∀ i, ∀ e ∈ side i tr, Good e) {v : ι → χ}
    (hwrite : ∀ i, ∀ e ∈ side i tr, ∀ x, write e = some x → x = v i) :
    get s' = ((lastWriter (fun e => (write e).isSome) tr).map v).getD (get s) := by
  rw [← getLast?_filterMap_side hwrite]
  apply h.get_eq hD
  intro e he
  rcases List.mem_map.mp he with ⟨⟨i, e⟩, hmem, rfl⟩
  exact hgood i e (mem_side.mpr hmem)

end State

/-! ## Simulation -/

/-- A program run against a device that computes its responses. -/
def Program.play (dev : σ → (o : O) → R o × σ) : Program R α → σ → List ((o : O) × R o) × α × σ
  | .done a, s => ([], a, s)
  | .perform o next, s =>
      let (r, s') := dev s o
      let (tr, a, s'') := (next r).play dev s'
      (⟨o, r⟩ :: tr, a, s'')

section Play

variable {dev : σ → (o : O) → R o × σ}

/-- A program that is played performs its trace. -/
theorem performs_play (p : Program R α) (s : σ) :
    Performs p (p.play dev s).1 (p.play dev s).2.1 := by
  induction p generalizing s with
  | done a => exact .done a
  | perform o next ih => exact .perform (ih _ _)

/-- The device follows that trace. -/
theorem follows_play (hdev : ∀ s o, D s o (dev s o).1 (dev s o).2) (p : Program R α) (s : σ) :
    Follows D s (p.play dev s).1 (p.play dev s).2.2 := by
  induction p generalizing s with
  | done a => exact .nil s
  | perform o next ih => exact .cons (hdev s o) (ih _ _)

end Play

/-- The result of a program that has nothing left to do. -/
def Program.result : Program R α → Option α
  | .done a => some a
  | .perform _ _ => none

theorem Program.eq_done_of_result {p : Program R α} {a : α} (h : p.result = some a) :
    p = .done a := by
  cases p with
  | done b =>
      cases h
      rfl
  | perform o next => cases h

/-- Programs run one operation at a time in the order of a schedule; the result is the
interleaving, what is left of the programs, and the state. -/
def simulate (dev : σ → (o : O) → R o × σ) :
    List ι → (ι → Program R α) → σ → List (ι × ((o : O) × R o)) × (ι → Program R α) × σ
  | [], ps, s => ([], ps, s)
  | i :: schedule, ps, s =>
      match ps i with
      | .done _ => simulate dev schedule ps s
      | .perform o next =>
          let (r, s') := dev s o
          let (tr, ps', s'') := simulate dev schedule (Function.update ps i (next r)) s'
          ((i, ⟨o, r⟩) :: tr, ps', s'')

section Simulate

variable {dev : σ → (o : O) → R o × σ}

/-- What is left of a program continues its side of the interleaving. -/
theorem performs_simulate (schedule : List ι) (ps : ι → Program R α) (s : σ) (i : ι) {a : α}
    (h : ((simulate dev schedule ps s).2.1 i).result = some a) :
    Performs (ps i) (side i (simulate dev schedule ps s).1) a := by
  induction schedule generalizing ps s with
  | nil =>
      rw [simulate] at h ⊢
      rw [show ps i = .done a from Program.eq_done_of_result h]
      exact .done a
  | cons j schedule ih =>
      rw [simulate] at h ⊢
      cases hj : ps j with
      | done b =>
          simp only [hj] at h ⊢
          exact ih ps s h
      | perform o next =>
          simp only [hj] at h ⊢
          have hrest := ih _ _ h
          by_cases hij : j = i
          · subst hij
            rw [Function.update_self] at hrest
            rw [hj, side_cons_self]
            exact .perform hrest
          · rw [Function.update_of_ne (Ne.symm hij)] at hrest
            rw [side_cons_of_ne hij]
            exact hrest

/-- The device follows the common trace of programs that are simulated together. -/
theorem follows_simulate (hdev : ∀ s o, D s o (dev s o).1 (dev s o).2) (schedule : List ι)
    (ps : ι → Program R α) (s : σ) :
    Follows D s ((simulate dev schedule ps s).1.map Prod.snd)
      (simulate dev schedule ps s).2.2 := by
  induction schedule generalizing ps s with
  | nil => exact .nil s
  | cons j schedule ih =>
      rw [simulate]
      cases hj : ps j with
      | done b => exact ih ps s
      | perform o next => exact .cons (hdev s o) (ih _ _)

end Simulate

end Device
