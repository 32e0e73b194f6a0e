import ChessMachine.Proofs.Machine.Simulation

/-!
# Passages

A machine passes a part of a program if it stays inside that part until it leaves the part at its
end, unless it stops before. Which instructions it executes on the way is its trail.

## Main definitions

* `Machine.trail` — the instructions of a counted run.
* `Machine.Passes` — a part of a program is passed, with what can be said about the trail.

## Main results

* `Machine.count_range'`, `Machine.count_append_start` — how often a trail is at its start.
* `Machine.Passes.andThen` — passages follow each other.
* `Machine.Passes.widen`, `Machine.Passes.within` — a passage is one of a larger part.
* `passes_op`, `passes_jif`, `passes_runAll` — the passage of instructions.
-/
namespace ChessMachine

namespace Machine

/-- The places of at most `n` instructions, in the order in which they are executed. -/
def trail (code : Array Instruction) : (n : Nat) → Machine → List Nat
  | 0, _ => []
  | n + 1, m =>
    m.ip :: match step code m with
      | .running m => trail code n m
      | _ => []

variable {code : Array Instruction} {m m' : Machine} {n j lo hi lo' hi' mid last : Nat}
  {post post' first : List Nat → Data → Prop}

theorem trail_one (m : Machine) : trail code 1 m = [m.ip] := by
  rw [trail]
  cases step code m <;> rfl

/-- The trail of a run goes on where that of its beginning ends. -/
theorem trail_add (h : run code j m = .running m') (n : Nat) :
    trail code (j + n) m = trail code j m ++ trail code n m' := by
  induction j generalizing m with
  | zero =>
    cases h
    rw [Nat.zero_add]
    rfl
  | succ j ih =>
    rw [Nat.succ_add, trail, trail]
    rw [run] at h
    cases hs : step code m with
    | running next =>
      rw [hs] at h
      exact congrArg (m.ip :: ·) (ih h)
    | halted | failed => simp [hs] at h

theorem length_trail (h : run code n m = .running m') : (trail code n m).length = n := by
  induction n generalizing m with
  | zero => rfl
  | succ n ih =>
    rw [trail]
    rw [run] at h
    cases hs : step code m with
    | running next =>
      rw [hs] at h
      exact congrArg Nat.succ (ih h)
    | halted | failed => simp [hs] at h

/-! ## Rows of places -/

theorem count_eq_zero_of_outside {t : List Nat} {lo hi place : Nat}
    (inside : ∀ ip ∈ t, lo ≤ ip ∧ ip < hi) (outside : place < lo ∨ hi ≤ place) :
    t.count place = 0 :=
  List.count_eq_zero.2 fun mem => by
    have := inside _ mem
    omega

theorem count_range'_of_outside {start length place : Nat}
    (outside : place < start ∨ start + length ≤ place) :
    (List.range' start length).count place = 0 :=
  count_eq_zero_of_outside (fun _ mem => List.mem_range'_1.1 mem) outside

/-- A row of places holds its first one once. -/
theorem count_range' (start length : Nat) :
    (List.range' start length).count start = min length 1 := by
  cases length with
  | zero => rfl
  | succ length =>
    rw [List.range'_succ, List.count_cons_self,
      count_range'_of_outside (.inl (Nat.lt_succ_self _))]
    omega

/-- Where two parts follow each other, the second one starts where the first one does only if the
first one is empty. -/
theorem count_append_start {t t' : List Nat} {start size size' hi : Nat}
    (once : t.count start = min size 1) (once' : t'.count (start + size) = min size' 1)
    (inside : ∀ ip ∈ t', start + size ≤ ip ∧ ip < hi) :
    (t ++ t').count start = min (size + size') 1 := by
  rw [List.count_append, once]
  by_cases none : size = 0
  · rw [none, Nat.add_zero] at once'
    rw [once']
    omega
  · rw [count_eq_zero_of_outside inside (by omega)]
    omega

theorem count_append_range' {t : List Nat} {start size length : Nat}
    (once : t.count start = min size 1) :
    (t ++ List.range' (start + size) length).count start = min (size + length) 1 :=
  count_append_start once (count_range' ..) fun _ mem => List.mem_range'_1.1 mem

/-! ## Passages -/

/-- The machine executes instructions from `lo` to before `hi` only, until it stops or gets to
`last`, with a trail and data as `post` says. -/
def Passes (code : Array Instruction) (lo hi : Nat) (m : Machine) (last : Nat)
    (post : List Nat → Data → Prop) : Prop :=
  ∃ n, (∀ ip ∈ trail code n m, lo ≤ ip ∧ ip < hi) ∧
    ((run code n m).IsFinal ∨
      ∃ d : Data, run code n m = .running (d.machine last) ∧ post (trail code n m) d)

namespace Passes

theorem here {d : Data} (h : post [] d) : Passes code lo hi (d.machine last) last post :=
  ⟨0, nofun, .inr ⟨d, rfl, h⟩⟩

/-- A machine that stops at once, inside, has passed. -/
theorem stop (final : (step code m).IsFinal) (le : lo ≤ m.ip) (lt : m.ip < hi) :
    Passes code lo hi m last post := by
  refine ⟨1, ?_, .inl ?_⟩
  · rw [trail_one]
    exact List.forall_mem_singleton.2 ⟨le, lt⟩
  · rwa [run_one rfl]

/-- Where the first passage ends, the next one begins. -/
theorem andThen (before : Passes code lo hi m mid first)
    (next : ∀ t d, first t d →
      Passes code lo hi (d.machine mid) last fun t' d' => post (t ++ t') d') :
    Passes code lo hi m last post := by
  obtain ⟨j, inside, final | ⟨d, ran, h⟩⟩ := before
  · exact ⟨j, inside, .inl final⟩
  · obtain ⟨k, inside', rest⟩ := next _ d h
    refine ⟨j + k, ?_, ?_⟩
    · rw [trail_add ran]
      exact List.forall_mem_append.2 ⟨inside, inside'⟩
    · rw [run_add ran, trail_add ran]
      exact rest

/-- A passage may be seen as one of a larger part. What is known of its trail is that it lies in the
smaller part and that it is as long as the run. -/
theorem widen (h : Passes code lo hi m last post) (le : lo' ≤ lo) (le' : hi ≤ hi')
    (imp : ∀ t d, run code t.length m = .running (d.machine last) →
      (∀ ip ∈ t, lo ≤ ip ∧ ip < hi) → post t d → post' t d) :
    Passes code lo' hi' m last post' := by
  obtain ⟨n, inside, rest⟩ := h
  refine ⟨n, fun ip mem => ?_, rest.imp_right ?_⟩
  · have := inside ip mem
    omega
  · rintro ⟨d, ran, h⟩
    exact ⟨d, ran, imp _ d (by rw [length_trail ran, ran]) inside h⟩

/-- What stays inside a part stays inside a larger one. -/
theorem within (h : Passes code lo hi m last post) (le : lo' ≤ lo) (le' : hi ≤ hi') :
    Passes code lo' hi' m last post :=
  h.widen le le' fun _ _ _ _ h => h

/-- One instruction inside, and then the rest. -/
theorem step {d : Data} (h : Machine.step code m = .running (d.machine mid)) (le : lo ≤ m.ip)
    (lt : m.ip < hi)
    (next : Passes code lo hi (d.machine mid) last fun t d => post (m.ip :: t) d) :
    Passes code lo hi m last post := by
  have one : Passes code lo hi m mid fun t d' => t = [m.ip] ∧ d' = d := by
    refine ⟨1, ?_, .inr ⟨d, run_one h, trail_one m, rfl⟩⟩
    rw [trail_one]
    exact List.forall_mem_singleton.2 ⟨le, lt⟩
  refine one.andThen fun t d' h => ?_
  obtain ⟨rfl, rfl⟩ := h
  exact next

end Passes

end Machine

open Machine (Passes run)

variable {code : Array Instruction} {d : Data} {lo hi ip start last : Nat}
  {post : List Nat → Data → Prop}

/-- An operation is passed if it goes on. -/
theorem passes_op {o : Op} (h : code[ip]? = some o.instruction) (le : lo ≤ ip) (lt : ip < hi)
    (next : ∀ d', o.run d = .goesOn d' →
      Passes code lo hi (d'.machine (ip + 1)) last fun t d => post (ip :: t) d) :
    Passes code lo hi (d.machine ip) last post := by
  have stepped := step_op (d := d) h
  cases ran : o.run d with
  | goesOn d' =>
    rw [ran] at stepped
    exact .step stepped le lt (next d' ran)
  | ended | failed =>
    rw [ran] at stepped
    exact .stop (by rw [stepped]; trivial) le lt

/-- Operations are passed one after the other. -/
theorem passes_runAll {ops : List Op} (fits : Fits code start (Op.straight ops)) (d : Data) :
    Passes code start (start + ops.length) (d.machine start) (start + ops.length)
      fun t d' => t = List.range' start ops.length ∧ Op.runAll ops d = .goesOn d' := by
  induction ops generalizing start d with
  | nil => exact .here ⟨rfl, rfl⟩
  | cons o rest ih =>
    rw [List.length_cons, ← Nat.add_assoc, Nat.add_right_comm]
    refine passes_op fits.head (Nat.le_refl start) (by omega) fun d' ran => ?_
    refine (ih fits.tail d').widen (by omega) (Nat.le_refl _) fun t d'' _ _ h => ?_
    obtain ⟨rfl, later⟩ := h
    exact ⟨rfl, by rw [Op.runAll, ran]; exact later⟩

/-- A jump is passed by taking it or not, if there is a value to decide that. -/
theorem passes_jif {target : Nat} (h : code[ip]? = some ⟨.jif, some (.ofNat target)⟩)
    (target_le : target ≤ code.size) (small : code.size < 0x8000000000000000) (le : lo ≤ ip)
    (lt : ip < hi)
    (next : ∀ value rest, d.stack = value :: rest →
      Passes code lo hi (({ d with stack := rest } : Data).machine
        (if value.val = 0 then target else ip + 1)) last fun t d => post (ip :: t) d) :
    Passes code lo hi (d.machine ip) last post := by
  have stepped := step_jif (d := d) h target_le small
  cases stack : d.stack with
  | nil =>
    rw [stack] at stepped
    exact .stop (by rw [stepped]; trivial) le lt
  | cons value rest =>
    rw [stack] at stepped
    exact .step stepped le lt (next value rest stack)

end ChessMachine
