import ChessMachine.Rules.Failure

/-!
# Computations that may fail

A computation that succeeds does so step by step.

## Main results

* `bind_eq_ok_iff`, `bind_eq_error_iff` — both parts of a successful computation succeed, and one of
  a failing computation fails.
* `mapError_eq_ok_iff` — the names of errors do not matter to success.
* `mapM_map_eq_ok`, `exists_of_mem_of_mapM` — computations in a row that succeed.
* `Failure.liftM_fault_eq_ok_iff`, `Failure.liftM_overflow_eq_ok_iff` — success does not depend on
  the kind of failure.
-/
namespace ChessMachine

variable {ε α β : Type} {a : α} {b : β}

/-- A computation in two parts succeeds exactly if both do. -/
theorem bind_eq_ok_iff {x : Except ε α} {f : α → Except ε β} :
    x >>= f = .ok b ↔ ∃ a, x = .ok a ∧ f a = .ok b := by
  cases x with
  | error e => exact ⟨nofun, nofun⟩
  | ok a => exact ⟨fun h => ⟨a, rfl, h⟩, fun ⟨_, rfl, h⟩ => h⟩

/-- It fails if the first part fails, or the second one after the first succeeded. -/
theorem bind_eq_error_iff {x : Except ε α} {f : α → Except ε β} {e : ε} :
    x >>= f = .error e ↔ x = .error e ∨ ∃ a, x = .ok a ∧ f a = .error e := by
  cases x with
  | error e' =>
    have same : (Except.error e' : Except ε α) >>= f = .error e' := rfl
    simp [same]
  | ok a =>
    have next : (Except.ok a : Except ε α) >>= f = f a := rfl
    simp [next]

theorem pure_eq_ok_iff {a' : α} : (pure a : Except ε α) = .ok a' ↔ a' = a :=
  ⟨fun h => (Except.ok.inj h).symm, fun h => congrArg Except.ok h.symm⟩

/-- Naming an error differently does not change what succeeds. -/
theorem mapError_eq_ok_iff {ε' : Type} {x : Except ε α} {f : ε → ε'} :
    x.mapError f = .ok a ↔ x = .ok a := by
  cases x with
  | error e => exact ⟨nofun, nofun⟩
  | ok b => exact ⟨fun h => congrArg _ (Except.ok.inj h), fun h => congrArg _ (Except.ok.inj h)⟩

/-- Values that are found one by one are found in a row. -/
theorem mapM_map_eq_ok {f : α → Except ε β} {g : β → α} {bs : List β}
    (h : ∀ b ∈ bs, f (g b) = .ok b) : (bs.map g).mapM f = .ok bs := by
  induction bs with
  | nil => rfl
  | cons b rest ih =>
    have later := ih fun c hc => h c (List.mem_cons_of_mem b hc)
    rw [List.map_cons, List.mapM_cons, h b List.mem_cons_self, later]
    rfl

/-- Where computations in a row succeed, each of them does. -/
theorem exists_of_mem_of_mapM {f : α → Except ε β} {as : List α} {bs : List β}
    (h : as.mapM f = .ok bs) (mem : a ∈ as) : ∃ b, f a = .ok b := by
  induction as generalizing bs with
  | nil => cases mem
  | cons a' rest ih =>
    rw [List.mapM_cons] at h
    obtain ⟨b, first, h⟩ := bind_eq_ok_iff.1 h
    obtain ⟨others, later, -⟩ := bind_eq_ok_iff.1 h
    rcases List.mem_cons.1 mem with rfl | mem
    · exact ⟨b, first⟩
    · exact ih later mem

namespace Failure

@[simp] theorem liftM_fault_eq_ok_iff {x : Except Fault α} :
    (liftM x : Except Failure α) = .ok a ↔ x = .ok a := mapError_eq_ok_iff

@[simp] theorem liftM_overflow_eq_ok_iff {x : Except Overflow α} :
    (liftM x : Except Failure α) = .ok a ↔ x = .ok a := mapError_eq_ok_iff

end Failure

end ChessMachine
