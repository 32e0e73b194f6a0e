import ChessMachine.Arith.Word

/-!
# Sums that are checked

Integers are added one by one. Each of them, and each sum on the way, has to be a word.

## Main definitions

* `Word.Fits` — the integer is a word.
* `Word.total` — the exact sum.
* `Word.SumsFit` — so are the terms of a sum and all partial sums.
* `Word.addTerms?` — adds terms to a word, as long as they and the sums are words.
* `Word.magnitude` — the absolute values of the terms, added up.

## Main results

* `Word.addTerms?_eq_some_iff` — what comes out.
* `Word.sumsFit_of_magnitude_le` — a bound on all sums.
-/
namespace ChessMachine

namespace Word

/-- The integer has 64 signed bits. -/
def Fits (n : Int) : Prop := -0x8000000000000000 ≤ n ∧ n ≤ 0x7fffffffffffffff

def total (terms : List Int) : Int := terms.foldr (· + ·) 0

/-- All terms fit, and so do the sums of the first terms. -/
structure SumsFit (terms : List Int) : Prop where
  term : ∀ t ∈ terms, Fits t
  sum : ∀ n, Fits (total (terms.take n))

/-- Adds terms one by one, as long as they and the sums are words. -/
def addTerms? (w : Word) (terms : List Int) : Option Word :=
  terms.foldlM (fun sum t => (Bounded.ofInt? t).bind sum.add?) w

variable {w v : Word} {n t : Int} {terms : List Int}

@[simp] theorem total_nil : total [] = 0 := rfl

@[simp] theorem total_cons (t : Int) (terms : List Int) :
    total (t :: terms) = t + total terms := rfl

theorem total_append (terms later : List Int) :
    total (terms ++ later) = total terms + total later := by
  induction terms with
  | nil => exact (Int.zero_add _).symm
  | cons t rest ih => rw [List.cons_append, total_cons, ih, total_cons, Int.add_assoc]

/-- The order of the terms does not matter to the exact sum. -/
theorem total_perm {terms other : List Int} (h : terms.Perm other) :
    total terms = total other := by
  induction h with
  | nil => rfl
  | cons t _ ih => rw [total_cons, ih, total_cons]
  | swap t s rest => simp only [total_cons, Int.add_left_comm]
  | trans _ _ ih₁ ih₂ => exact ih₁.trans ih₂

/-- Turning the signs of all terms turns the sign of their sum. -/
theorem total_map_neg (terms : List Int) : total (terms.map (- ·)) = -total terms := by
  induction terms with
  | nil => rfl
  | cons t rest ih => rw [List.map_cons, total_cons, ih, total_cons, Int.neg_add]

theorem fits_val (w : Word) : Fits w.val := ⟨w.lo_le, w.le_hi⟩

@[simp] theorem addTerms?_nil (w : Word) : w.addTerms? [] = some w := rfl

theorem addTerms?_cons (w : Word) (t : Int) (terms : List Int) :
    w.addTerms? (t :: terms) = ((Bounded.ofInt? t).bind w.add?).bind (addTerms? · terms) :=
  List.foldlM_cons

/-- Later terms are added to the sum of the earlier ones, if there is one. -/
theorem addTerms?_append (w : Word) (terms later : List Int) :
    w.addTerms? (terms ++ later) = (w.addTerms? terms).bind (addTerms? · later) :=
  List.foldlM_append

theorem addTerms?_singleton (w : Word) (t : Int) :
    w.addTerms? [t] = (Bounded.ofInt? t).bind w.add? := by
  rw [addTerms?_cons]
  simp

/-- One addition succeeds if the term and the new sum are words. -/
theorem add_term_eq_some_iff :
    (Bounded.ofInt? t).bind w.add? = some v ↔ Fits t ∧ v.val = w.val + t := by
  rw [Option.bind_eq_some_iff]
  constructor
  · rintro ⟨word, isTerm, added⟩
    have := Bounded.ofInt?_eq_some_iff.1 isTerm
    rw [← this]
    exact ⟨fits_val word, Bounded.ofInt?_eq_some_iff.1 added⟩
  · rintro ⟨fits, sum⟩
    exact ⟨⟨t, fits.1, fits.2⟩, Bounded.ofInt?_eq_some_iff.2 rfl, Bounded.ofInt?_eq_some_iff.2 sum⟩

/-- A checked sum is the sum, and there is one if everything on the way fits. -/
theorem addTerms?_eq_some_iff : w.addTerms? terms = some v ↔
    (∀ t ∈ terms, Fits t) ∧ (∀ n, Fits (w.val + total (terms.take n))) ∧
      v.val = w.val + total terms := by
  -- the sums of the rest start at the first sum
  induction terms generalizing w with
  | nil =>
    simp only [addTerms?_nil, Option.some.injEq, List.not_mem_nil, List.take_nil, total_nil,
      Int.add_zero]
    exact ⟨fun h => ⟨nofun, fun _ => fits_val w, h ▸ rfl⟩, fun h => Bounded.ext h.2.2.symm⟩
  | cons t rest ih =>
    rw [addTerms?_cons, Option.bind_eq_some_iff, List.forall_mem_cons, total_cons]
    constructor
    · rintro ⟨next, added, later⟩
      obtain ⟨fits, sum⟩ := add_term_eq_some_iff.1 added
      obtain ⟨all, sums, last⟩ := ih.1 later
      refine ⟨⟨fits, all⟩, fun n => ?_, by rw [last, sum, Int.add_assoc]⟩
      cases n with
      | zero => simpa using fits_val w
      | succ n =>
        rw [List.take_succ_cons, total_cons, ← Int.add_assoc, ← sum]
        exact sums n
    · rintro ⟨⟨fits, all⟩, sums, last⟩
      have first := sums 1
      simp only [List.take_succ_cons, List.take_zero, total_cons, total_nil,
        Int.add_zero] at first
      refine ⟨⟨w.val + t, first.1, first.2⟩, add_term_eq_some_iff.2 ⟨fits, rfl⟩,
        ih.2 ⟨all, fun n => ?_, by rw [last, Int.add_assoc]⟩⟩
      have sum := sums (n + 1)
      rwa [List.take_succ_cons, total_cons, ← Int.add_assoc] at sum

/-- From zero on, terms add up to a word exactly if they and all partial sums are words. -/
theorem addTerms?_zero_eq_some_iff :
    (0 : Word).addTerms? terms = some v ↔ SumsFit terms ∧ v.val = total terms := by
  have zero : (0 : Word).val = 0 := rfl
  rw [addTerms?_eq_some_iff, zero]
  simp only [Int.zero_add]
  exact ⟨fun ⟨term, sum, last⟩ => ⟨⟨term, sum⟩, last⟩, fun ⟨fit, last⟩ => ⟨fit.term, fit.sum, last⟩⟩

/-- A sum that fits is a word. -/
theorem SumsFit.exists_eq_some (fit : SumsFit terms) :
    ∃ v, (0 : Word).addTerms? terms = some v ∧ v.val = total terms := by
  have sum := fit.sum terms.length
  rw [List.take_length] at sum
  exact ⟨⟨total terms, sum.1, sum.2⟩, addTerms?_zero_eq_some_iff.2 ⟨fit, rfl⟩, rfl⟩

theorem addTerms?_zero_eq_none (unfit : ¬ SumsFit terms) : (0 : Word).addTerms? terms = none :=
  Option.eq_none_iff_forall_ne_some.2 fun _ some =>
    unfit (addTerms?_zero_eq_some_iff.1 some).1

/-! ## Bounds -/

def magnitude (terms : List Int) : Nat := terms.foldr (fun t sum => t.natAbs + sum) 0

theorem magnitude_cons (t : Int) (rest : List Int) :
    magnitude (t :: rest) = t.natAbs + magnitude rest := rfl

theorem magnitude_singleton (t : Int) : magnitude [t] = t.natAbs := Nat.add_zero _

theorem magnitude_append (terms later : List Int) :
    magnitude (terms ++ later) = magnitude terms + magnitude later := by
  induction terms with
  | nil => exact (Nat.zero_add _).symm
  | cons t rest ih => rw [List.cons_append, magnitude_cons, ih, magnitude_cons, Nat.add_assoc]

/-- A bound on each term bounds the magnitude, by the number of terms. -/
theorem magnitude_le_of_forall {n : Nat} (h : ∀ t ∈ terms, t.natAbs ≤ n) :
    magnitude terms ≤ terms.length * n := by
  induction terms with
  | nil => exact Nat.zero_le _
  | cons t rest ih =>
    obtain ⟨first, later⟩ := List.forall_mem_cons.1 h
    have := ih later
    rw [magnitude_cons, List.length_cons, Nat.succ_mul]
    omega

/-- The sum is at most the magnitude, whatever the signs. -/
theorem natAbs_total_le (terms : List Int) : (total terms).natAbs ≤ magnitude terms := by
  induction terms with
  | nil => exact Nat.le_refl 0
  | cons t rest ih =>
    rw [total_cons, magnitude_cons]
    omega

theorem natAbs_le_magnitude (h : t ∈ terms) : t.natAbs ≤ magnitude terms := by
  obtain ⟨before, after, rfl⟩ := List.append_of_mem h
  rw [magnitude_append, magnitude_cons]
  omega

theorem magnitude_take_le (n : Nat) (terms : List Int) :
    magnitude (terms.take n) ≤ magnitude terms := by
  have split := magnitude_append (terms.take n) (terms.drop n)
  rw [List.take_append_drop] at split
  omega

/-- Terms that are small enough as a whole leave no room for an overflow. -/
theorem sumsFit_of_magnitude_le (small : magnitude terms ≤ 0x7fffffffffffffff) :
    SumsFit terms := by
  refine ⟨fun t ht => ?_, fun n => ?_⟩
  · have := natAbs_le_magnitude ht
    exact ⟨by omega, by omega⟩
  · have := natAbs_total_le (terms.take n)
    have := magnitude_take_le n terms
    exact ⟨by omega, by omega⟩

end Word

end ChessMachine
