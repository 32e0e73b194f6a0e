import ChessMachine.Proofs.Machine.Compilation
import ChessMachine.Proofs.Machine.Passage
import ChessMachine.Proofs.Machine.Writes

/-!
# Termination

Structured code ends if no loop writes, in its body, the cells that say how often it runs. Such a
loop runs its body as often as its limit says when the counter has been reset, whatever the code
around it has done before.

## Main definitions

* `Code.SparesLoops` — no loop's body writes the counter or the limit of the loop.
* `Code.Part` — the parts of a tree and the places where they stand.

## Main results

* `Code.passes`, `Code.passes_loop` — a tree is passed, and how often a loop runs its body.
* `Code.halts_of_sparesLoops` — the program of such a tree stops.
-/
namespace ChessMachine

namespace Code

/-! ## Loops that are spared -/

/-- No loop's body writes the counter of the loop or the cell of its limit. -/
def SparesLoops : Code → Prop
  | block _ => True
  | seq first second => first.SparesLoops ∧ second.SparesLoops
  | guarded cond body => cond.SparesLoops ∧ body.SparesLoops
  | loop counter limit body =>
    body.SparesLoops ∧ ∀ w ∈ Word.ofNat counter :: limit.cells, w ∉ body.written

/-- What stands where in a tree that starts at `start`. The jump of a guard stands before its body,
and six instructions stand before the body of a loop. -/
inductive Part : (c : Code) → (start : Nat) → (part : Code) → (place : Nat) → Prop where
  | self {c : Code} {start : Nat} : Part c start c start
  | first {a b c : Code} {start place : Nat} (h : Part a start c place) :
    Part (seq a b) start c place
  | second {a b c : Code} {start place : Nat} (h : Part b (start + a.size) c place) :
    Part (seq a b) start c place
  | cond {a b c : Code} {start place : Nat} (h : Part a start c place) :
    Part (guarded a b) start c place
  | guarded {a b c : Code} {start place : Nat} (h : Part b (start + a.size + 1) c place) :
    Part (guarded a b) start c place
  | body {b c : Code} {counter start place : Nat} {limit : Limit}
    (h : Part b (start + 6) c place) : Part (loop counter limit b) start c place

namespace Part

variable {code : Array Instruction} {c part : Code} {start place : Nat}

/-- A tree that spares its loops does so in each part. -/
theorem sparesLoops (h : Part c start part place) (spares : c.SparesLoops) :
    part.SparesLoops := by
  induction h with
  | self => exact spares
  | first _ ih | cond _ ih => exact ih spares.1
  | second _ ih | guarded _ ih => exact ih spares.2
  | body _ ih => exact ih spares.1

/-- The instructions of a part stand among those of the tree. -/
theorem fits (h : Part c start part place) (fits : Fits code start (c.instructions start)) :
    Fits code place (part.instructions place) := by
  induction h with
  | self => exact fits
  | first _ ih | cond _ ih => exact ih fits.left
  | second _ ih =>
    have right := fits.right
    rw [length_instructions] at right
    exact ih right
  | guarded _ ih =>
    have jump := fits.right
    rw [length_instructions] at jump
    exact ih jump.tail
  | body _ ih => exact ih (LoopFits.of_fits fits).inner

/-- A part ends before the tree does. -/
theorem place_add_size_le (h : Part c start part place) :
    place + part.size ≤ start + c.size := by
  induction h with
  | self => exact Nat.le_refl _
  | first _ ih | second _ ih | cond _ ih | guarded _ ih | body _ ih =>
    simp only [size] at ih ⊢
    omega

end Part

/-! ## Passages of trees -/

open Machine (Passes count_append_start count_append_range' count_eq_zero_of_outside count_range'
  count_range'_of_outside)

variable {code : Array Instruction} {counter start : Nat} {limit : Limit} {body : Code}
  {d d' opened : Data} {count times : Word}

section Loop

variable {lo hi last exit : Nat} {post : List Nat → Data → Prop}

/-- The test of a loop is passed to the body or to the exit. -/
theorem passes_test (fits : Fits code start (Op.straight (testOps counter limit)
      ++ [⟨.jif, some (.ofNat exit)⟩])) (exit_le : exit ≤ code.size)
    (small : code.size < 0x8000000000000000) (le : lo ≤ start) (lt : start + 4 ≤ hi)
    (counts : d.get (.ofNat counter) = .ok count)
    (next : ∀ times, limit.value d = .ok times →
      Passes code lo hi (d.machine (if count.val < times.val then start + 4 else exit)) last
        fun t d => post (List.range' start 4 ++ t) d) :
    Passes code lo hi (d.machine start) last post := by
  have jif := fits.right.head
  rw [Op.length_straight] at jif
  have three : start + (testOps counter limit).length ≤ hi := by
    simp only [testOps, List.length_cons, List.length_nil]
    omega
  refine ((passes_runAll fits.left d).within le three).andThen fun t tested h => ?_
  obtain ⟨rfl, ran⟩ := h
  rw [runAll_testOps, Data.isBelow, counts] at ran
  cases value : limit.value d with
  | error e =>
    rw [value] at ran
    cases ran
  | ok times =>
    rw [value] at ran
    cases ran
    refine passes_jif jif exit_le small (by omega)
      (Nat.lt_of_lt_of_le (Nat.lt_succ_self (start + 3)) lt) fun bit rest stack => ?_
    obtain ⟨rfl, rfl⟩ := List.cons.inj stack
    have goal := next times value
    by_cases below : count.val < times.val
    · rw [if_pos below] at goal
      rw [decide_eq_true below]
      exact goal
    · rw [if_neg below] at goal
      rw [decide_eq_false below]
      exact goal

/-- Counting a run leads back to the test. -/
theorem passes_count (parts : LoopFits code start counter limit body)
    (small : code.size < 0x8000000000000000) (le : lo ≤ start + 6 + body.size)
    (lt : start + 6 + body.size + 5 ≤ hi) (le_size : start + 6 + body.size + 5 ≤ code.size)
    (counts : d.get (.ofNat counter) = .ok count)
    (next : ∀ (d' : Data) (count' : Word), d'.get (.ofNat counter) = .ok count' →
      count'.val = count.val + 1 → d.AgreesExcept [.ofNat counter] d' →
      Passes code lo hi (d'.machine (start + 2)) last
        fun t d => post (List.range' (start + 6 + body.size) 5 ++ t) d) :
    Passes code lo hi (d.machine (start + 6 + body.size)) last post := by
  have four : start + 6 + body.size + (countOps counter).length ≤ hi := by
    simp only [countOps, List.length_cons, List.length_nil]
    omega
  refine ((passes_runAll parts.count d).within le four).andThen fun t d' h => ?_
  obtain ⟨rfl, ran⟩ := h
  rw [runAll_countOps] at ran
  obtain ⟨count', value, put⟩ := Data.put_of_count counts ran
  obtain ⟨there, others⟩ := Data.get_of_put put
  have jumped := step_jmp (d := d') parts.back (by omega) small
  refine .step jumped ?_ ?_ ?_
  · exact Nat.le_trans le (Nat.le_add_right ..)
  · exact Nat.lt_of_lt_of_le (Nat.lt_succ_self _) lt
  · exact next d' count' there value others

/-- What is known of a tree that has been passed: it was started once, if it is not empty, and has
written no cells but its own. -/
def Passed (c : Code) (start : Nat) (d : Data) (t : List Nat) (d' : Data) : Prop :=
  t.count start = min c.size 1 ∧ d.AgreesExcept c.written d'

variable (parts : LoopFits code start counter limit body)
  (le_size : start + 6 + body.size + 5 ≤ code.size) (small : code.size < 0x8000000000000000)
  (spared : ∀ w ∈ Word.ofNat counter :: limit.cells, w ∉ body.written)
  (inner : ∀ d : Data, Passes code (start + 6) (start + 6 + body.size) (d.machine (start + 6))
    (start + 6 + body.size) (body.Passed (start + 6) d))
include parts le_size small spared inner

/-- A run of the body and its counting. -/
theorem passes_turn (counts : d.get (.ofNat counter) = .ok count)
    (value : limit.value d = .ok times) (below : count.val < times.val) :
    Passes code (start + 2) (start + 6 + body.size + 5) (d.machine (start + 6)) (start + 2)
      fun t d' => t.count (start + 6) = 1 ∧
        (∃ count', d'.get (.ofNat counter) = .ok count' ∧ count'.val = count.val + 1) ∧
        limit.value d' = .ok times ∧ d.AgreesExcept (.ofNat counter :: body.written) d' := by
  refine ((inner d).within (by omega) (by omega)).andThen fun t d₁ h => ?_
  obtain ⟨once, agrees⟩ := h
  have counts₁ : d₁.get (.ofNat counter) = .ok count :=
    (agrees _ (spared _ List.mem_cons_self)).trans counts
  refine passes_count parts small (by omega) (by omega) le_size counts₁
    fun d₂ count' counts₂ next others => ?_
  refine .here ⟨?_, ⟨count', counts₂, next⟩, ?_, ?_⟩
  · rw [List.append_nil, count_append_range' once]
    omega
  · rw [← value]
    refine Limit.value_eq_of_get_eq fun w mem => ?_
    have apart : w ≠ .ofNat counter := by
      rintro rfl
      have same := (Limit.get_of_mem_cells mem value).symm.trans counts
      obtain rfl := Except.ok.inj same
      omega
    exact (others w (by simpa using apart)).trans (agrees w (spared w (List.mem_cons_of_mem _ mem)))
  · exact agrees.trans others (List.subset_cons_self ..) (by simp)

/-- From its test on, a loop runs its body as often as the counter is below the limit. -/
theorem passes_turns (counts : d.get (.ofNat counter) = .ok count)
    (value : limit.value d = .ok times) :
    Passes code (start + 2) (start + 6 + body.size + 5) (d.machine (start + 2))
      (start + 6 + body.size + 5) fun t d' =>
        t.count (start + 6) = (times.val - count.val).toNat ∧
          d.AgreesExcept (.ofNat counter :: body.written) d' := by
  have test : (List.range' (start + 2) 4).count (start + 6) = 0 :=
    count_range'_of_outside (.inr (Nat.le_refl _))
  -- by induction on the number of turns that are left
  induction left : (times.val - count.val).toNat generalizing d count with
  | zero =>
    refine passes_test parts.test le_size small (Nat.le_refl _) (by omega) counts
      fun times' value' => ?_
    obtain rfl := Except.ok.inj (value'.symm.trans value)
    rw [if_neg (by omega)]
    exact .here ⟨by rw [List.append_nil, test], .refl _ _⟩
  | succ left ih =>
    refine passes_test parts.test le_size small (Nat.le_refl _) (by omega) counts
      fun times' value' => ?_
    obtain rfl := Except.ok.inj (value'.symm.trans value)
    have below : count.val < times'.val := by omega
    rw [if_pos below]
    refine (passes_turn parts le_size small spared inner counts value below).andThen
      fun t d₁ h => ?_
    obtain ⟨once, ⟨count', counts', next⟩, value₁, agrees⟩ := h
    refine (ih counts' value₁ (by omega)).widen (Nat.le_refl _) (Nat.le_refl _)
      fun t' d₂ _ _ h => ?_
    obtain ⟨rest, agrees'⟩ := h
    refine ⟨?_, agrees.trans agrees' (List.Subset.refl _) (List.Subset.refl _)⟩
    rw [List.count_append, List.count_append, test, once, rest]
    omega

/-- A loop whose counter has been reset runs its body as often as its limit says then. -/
theorem passes_loop (d : Data) :
    Passes code start (start + 6 + body.size + 5) (d.machine start) (start + 6 + body.size + 5)
      fun t d' => (loop counter limit body).Passed start d t d' ∧
        ∃ opened times,
          Machine.run code 2 (d.machine start) = .running (Data.machine opened (start + 2)) ∧
          limit.value opened = .ok times ∧ t.count (start + 6) = times.val.toNat := by
  have reset : Passes code start (start + 6 + body.size + 5) (d.machine start) (start + 2)
      fun t opened => t = List.range' start 2 ∧ d.put (.ofNat counter) 0 = .goesOn opened ∧
        Machine.run code 2 (d.machine start) = .running (opened.machine (start + 2)) := by
    refine (passes_runAll parts.reset d).widen (Nat.le_refl _) ?_ fun t opened ran _ h => ?_
    · simp only [resetOps, List.length_cons, List.length_nil]
      omega
    · obtain ⟨rfl, put⟩ := h
      rw [runAll_resetOps] at put
      exact ⟨rfl, put, ran⟩
  refine reset.andThen fun t opened h => ?_
  obtain ⟨rfl, put, ran⟩ := h
  obtain ⟨counts, others⟩ := Data.get_of_put put
  cases value : limit.value opened with
  | error e =>
    refine passes_test parts.test le_size small (Nat.le_add_right start 2) (by omega) counts
      fun times value' => ?_
    cases value.symm.trans value'
  | ok times =>
    have turns := passes_turns parts le_size small spared inner counts value
    refine turns.widen (by omega) (Nat.le_refl _) fun t d' _ inside h => ?_
    obtain ⟨runs, agrees⟩ := h
    refine ⟨⟨?_, ?_⟩, opened, times, ran, value, ?_⟩
    · rw [List.count_append, count_range', count_eq_zero_of_outside inside (by omega), size]
      omega
    · exact others.trans agrees (by simp [written]) (List.Subset.refl _)
    · rw [List.count_append, count_range'_of_outside (by omega), runs, Nat.zero_add]
      exact congrArg Int.toNat (Int.sub_zero _)

end Loop

/-- A tree that spares its loops is passed. -/
theorem passes (c : Code) (spares : c.SparesLoops) (fits : Fits code start (c.instructions start))
    (le_size : start + c.size ≤ code.size) (small : code.size < 0x8000000000000000) (d : Data) :
    Passes code start (start + c.size) (d.machine start) (start + c.size) (c.Passed start d) := by
  induction c generalizing start d with
  | block ops =>
    refine (passes_runAll fits d).widen (Nat.le_refl _) (Nat.le_refl _) fun t d' _ _ h => ?_
    obtain ⟨rfl, ran⟩ := h
    exact ⟨count_range' start ops.length, Op.agrees_of_runAll ran⟩
  | seq first second ih₁ ih₂ =>
    have fits₂ := fits.right
    rw [length_instructions] at fits₂
    simp only [size, ← Nat.add_assoc] at le_size ⊢
    have passed := ih₁ spares.1 fits.left (by omega) d
    refine (passed.within (Nat.le_refl _) (Nat.le_add_right ..)).andThen fun t d₁ h => ?_
    obtain ⟨once, agrees⟩ := h
    refine (ih₂ spares.2 fits₂ le_size d₁).widen (Nat.le_add_right ..) (Nat.le_refl _)
      fun t' d₂ _ inside h => ?_
    obtain ⟨once', agrees'⟩ := h
    refine ⟨?_, agrees.trans agrees' (List.subset_append_left ..) (List.subset_append_right ..)⟩
    exact count_append_start once once' inside
  | guarded cond body ihc ihb =>
    have jump := fits.right
    rw [length_instructions] at jump
    simp only [size, ← Nat.add_assoc] at le_size ⊢
    have passed := ihc spares.1 fits.left (by omega) d
    refine (passed.within (Nat.le_refl _) (by omega)).andThen fun t d₁ h => ?_
    obtain ⟨once, agrees⟩ := h
    refine passes_jif jump.head le_size small (by omega) (by omega) fun value rest stack => ?_
    have here : (t ++ [start + cond.size]).count start = 1 := by
      rw [← List.range'_one, count_append_range' once]
      omega
    have popped : d₁.AgreesExcept [] { d₁ with stack := rest } := Data.agrees_of_memory_eq rfl
    have agrees₁ := agrees.trans popped (List.Subset.refl _) (List.nil_subset _)
    by_cases zero : value.val = 0
    · rw [if_pos zero]
      refine .here ⟨?_, ?_⟩
      · rw [here, size]
        omega
      · exact agrees.trans popped (List.subset_append_left ..) (List.nil_subset _)
    · rw [if_neg zero]
      refine (ihb spares.2 jump.tail le_size _).widen (by omega) (Nat.le_refl _)
        fun t' d₂ _ inside h => ?_
      obtain ⟨-, agrees'⟩ := h
      refine ⟨?_, agrees₁.trans agrees' (List.subset_append_left ..) (List.subset_append_right ..)⟩
      rw [List.append_cons, List.count_append, here, count_eq_zero_of_outside inside (by omega),
        size]
      omega
  | loop counter limit body ih =>
    have parts := LoopFits.of_fits fits
    simp only [size, ← Nat.add_assoc] at le_size ⊢
    have inner (d : Data) := ih spares.1 parts.inner (by omega) d
    exact (passes_loop parts le_size small spares.2 inner d).widen (Nat.le_refl _) (Nat.le_refl _)
      fun _ _ _ _ h => h.1

/-- The program of a tree that spares its loops stops, with an output or a mishap. Wherever a loop
of the tree is entered, its body is run as often as the limit says after the counter was reset,
unless the machine stops inside the loop. The runs are counted where the body starts. -/
theorem halts_of_sparesLoops (c : Code) (spares : c.SparesLoops)
    (small : c.size < 0x8000000000000000) :
    ∃ p, c.compile = .ok p ∧
      (∃ n, (Machine.run p.code n (.fresh p.memorySize)).IsFinal) ∧
      ((∃ output, p.execute = .ok output) ∨ ∃ e ip, p.execute = .error (Mishap.fault ip e)) ∧
      ∀ counter limit body place, Part c 0 (loop counter limit body) place → ∀ d : Data,
        Passes p.code place (place + (loop counter limit body).size) (d.machine place)
          (place + (loop counter limit body).size) fun t _ =>
            ∃ opened times, Machine.run p.code 2 (d.machine place)
                = .running (Data.machine opened (place + 2)) ∧
              limit.value opened = .ok times ∧ t.count (place + 6) = times.val.toNat := by
  have h := compile_eq c
  refine ⟨_, h, ?_⟩
  generalize (⟨(c.instructions 0).toArray⟩ : Program) = p at h
  have fits := fits_of_compile h
  have size := size_of_compile h
  have halts : ∃ n, (Machine.run p.code n (.fresh p.memorySize)).IsFinal := by
    have passed := passes c spares fits (by omega) (by omega) (.fresh p.memorySize)
    obtain ⟨n, -, final | ⟨d, ran, -⟩⟩ := passed
    · exact ⟨n, final⟩
    · have past : Machine.step p.code (d.machine (0 + c.size))
          = .halted (d.machine (0 + c.size)) :=
        Machine.step_of_size_le (by simp [Data.machine, size])
      have stopped := (Machine.run_add ran 1).trans (Machine.run_one past)
      have final : (Machine.run p.code (n + 1) (.fresh p.memorySize)).IsFinal :=
        stopped ▸ trivial
      exact ⟨n + 1, final⟩
  refine ⟨halts, ?_, fun counter limit body place part d => ?_⟩
  · obtain ⟨o, run⟩ := (exists_isFinal_iff small h).1 halts
    cases o with
    | goesOn d | ended d => exact .inl ⟨_, execute_eq_ok small h run rfl⟩
    | failed e => exact .inr ⟨e, execute_eq_error small h run⟩
  · have spared := part.sparesLoops spares
    have parts := LoopFits.of_fits (part.fits fits)
    have le := part.place_add_size_le
    simp only [Code.size, ← Nat.add_assoc] at le ⊢
    have inner (d : Data) := passes body spared.1 parts.inner (by omega) (by omega) d
    exact (passes_loop parts (by omega) (by omega) spared.2 inner d).widen (Nat.le_refl _)
      (Nat.le_refl _) fun _ _ _ _ h => h.2

/-- Adds up the numbers below four: the inner loop runs as often as the counter of the outer one
says. -/
def triangle : Code := loop 0 (.literal 4) (loop 1 (.cell 0) (increment 2))

theorem halts_triangle :
    ∃ p, triangle.compile = .ok p ∧
      ((∃ output, p.execute = .ok output) ∨ ∃ e ip, p.execute = .error (Mishap.fault ip e)) ∧
      ∀ d : Data, Passes p.code 6 21 (d.machine 6) 21 fun t _ =>
        ∃ opened times, Machine.run p.code 2 (d.machine 6) = .running (Data.machine opened 8) ∧
          Data.get opened 0 = .ok times ∧ t.count 12 = times.val.toNat := by
  have spares : triangle.SparesLoops := ⟨⟨trivial, by decide⟩, by decide⟩
  obtain ⟨p, h, -, answers, loops⟩ := halts_of_sparesLoops triangle spares (by decide)
  exact ⟨p, h, answers, loops 1 (.cell 0) (increment 2) 6 (.body .self)⟩

end Code

end ChessMachine
