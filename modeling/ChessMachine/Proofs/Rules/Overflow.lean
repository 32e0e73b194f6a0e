import ChessMachine.Proofs.Rules.LegalMoves
import ChessMachine.Rules.Perft

/-!
# Overflowing counters

Whatever is computed by playing moves may end early because a counter overflows. Apart from that,
legal moves and counts are put together from what is found for each move, and with room in the
counters nothing overflows at all.

## Main definitions

* `Overflows`, `Yields` — a computation ends by an overflow, or else gives such a value.
* `Position.HasRoom` — the counters can count some moves more.

## Main results

* `Position.yields_addLegal`, `Position.yields_sumOver` — all moves taken together.
* `Position.not_overflows_perft` — as many as there is room for.
-/
namespace ChessMachine

section

variable {α β : Type} {a : α} {x : Except Failure α} {f : α → Except Failure β} {P : α → Prop}
  {Q : β → Prop}

def Overflows (x : Except Failure α) : Prop := ∃ o, x = .error (.overflow o)

/-- The computation gives a value that satisfies `P`, unless a counter overflows. -/
def Yields (x : Except Failure α) (P : α → Prop) : Prop := (∃ a, x = .ok a ∧ P a) ∨ Overflows x

theorem Yields.ok (h : P a) : Yields (.ok a) P := .inl ⟨a, rfl, h⟩

theorem Yields.imp {R : α → Prop} (h : Yields x P) (weaker : ∀ a, P a → R a) : Yields x R :=
  h.imp_left fun ⟨a, found, holds⟩ => ⟨a, found, weaker a holds⟩

/-- What one computation yields, another one goes on from. -/
theorem Yields.bind (first : Yields x P) (next : ∀ a, P a → Yields (f a) Q) :
    Yields (x >>= f) Q := by
  rcases first with ⟨a, rfl, h⟩ | ⟨o, rfl⟩
  · exact next a h
  · exact .inr ⟨o, rfl⟩

/-- Without an overflow, the value is there. -/
theorem Yields.eq_ok (h : Yields x (· = a)) (never : ¬ Overflows x) : x = .ok a := by
  obtain ⟨b, found, rfl⟩ := h.resolve_right never
  exact found

theorem yields_liftM_overflow {x : Except Overflow α} (h : ∀ a, x = .ok a → P a) :
    Yields (liftM x : Except Failure α) P := by
  cases x with
  | ok a => exact .ok (h a rfl)
  | error o => exact .inr ⟨o, rfl⟩

theorem not_overflows_ok (a : α) : ¬ Overflows (.ok a : Except Failure α) := nofun

theorem not_overflows_liftM_fault (x : Except Fault α) :
    ¬ Overflows (liftM x : Except Failure α) := by
  rintro ⟨o, h⟩
  cases x <;> cases h

theorem not_overflows_bind (first : ¬ Overflows x) (next : ∀ a, x = .ok a → ¬ Overflows (f a)) :
    ¬ Overflows (x >>= f) := by
  rintro ⟨o, h⟩
  cases x with
  | ok a => exact next a rfl ⟨o, h⟩
  | error e =>
    obtain rfl : e = .overflow o := Except.error.inj h
    exact first ⟨o, rfl⟩

end

namespace Position

variable {p q : Position} {m : Move} {moves : List Move} {count : Position → Except Failure Nat}
  {n depth : Nat}

/-! ## Legal moves -/

/-- If a list is found, then each move was told legal or not, and the legal ones were added. -/
theorem exists_of_addLegal {found out : Array Move} (h : p.addLegal found moves = .ok out) :
    ∃ legal : Move → Bool, (∀ m ∈ moves, p.isLegal m = .ok (legal m)) ∧
      out = found ++ (moves.filter legal).toArray := by
  refine ⟨fun m => (p.isLegal m).toOption.getD false, ?_⟩
  induction moves generalizing found with
  | nil =>
    obtain rfl := Except.ok.inj h
    simp
  | cons m rest ih =>
    obtain ⟨answer, legal, h⟩ := bind_eq_ok_iff.1 h
    have known : (p.isLegal m).toOption.getD false = answer := by rw [legal]; rfl
    have first : p.isLegal m = .ok ((p.isLegal m).toOption.getD false) := by rw [known, legal]
    cases answer with
    | false =>
      obtain ⟨all, rfl⟩ := ih h
      refine ⟨List.forall_mem_cons.2 ⟨first, all⟩, ?_⟩
      simp [known]
    | true =>
      simp only [if_true] at h
      split at h
      · obtain ⟨all, rfl⟩ := ih h
        refine ⟨List.forall_mem_cons.2 ⟨first, all⟩, ?_⟩
        simp [known]
      · cases h

/-- The legal moves are added as long as they fit. -/
theorem yields_addLegal (found : Array Move) (legal : Move → Bool)
    (each : ∀ m ∈ moves, Yields (p.isLegal m) (· = legal m))
    (room : found.size + (moves.filter legal).length ≤ moveCapacity) :
    Yields (p.addLegal found moves) (· = found ++ (moves.filter legal).toArray) := by
  induction moves generalizing found with
  | nil => exact .ok (by simp)
  | cons m rest ih =>
    have later : ∀ m ∈ rest, Yields (p.isLegal m) (· = legal m) :=
      fun m hm => each m (List.mem_cons_of_mem _ hm)
    rw [addLegal]
    refine (each m List.mem_cons_self).bind fun answer same => ?_
    subst answer
    cases answer : legal m with
    | false =>
      rw [List.filter_cons_of_neg (by simp [answer])] at room ⊢
      exact ih found later room
    | true =>
      rw [List.filter_cons_of_pos answer] at room ⊢
      rw [List.length_cons] at room
      have space : found.size < moveCapacity := by omega
      have pushed : (found.push m).size + (rest.filter legal).length ≤ moveCapacity := by
        rw [Array.size_push]
        omega
      rw [if_pos rfl, if_pos space, ← List.push_append_toArray]
      exact ih (found.push m) later pushed

/-- Moves are found legal one by one. -/
theorem yields_legalMoves (legal : Move → Bool)
    (each : ∀ m ∈ p.pseudoLegalMoves, Yields (p.isLegal m) (· = legal m))
    (room : (p.pseudoLegalMoves.filter legal).length ≤ moveCapacity) :
    Yields p.legalMoves (· = p.pseudoLegalMoves.filter legal) := by
  refine (yields_addLegal #[] legal each (by simpa using room)).bind fun out same => .ok ?_
  simp [same]

theorem exists_of_legalMoves (h : p.legalMoves = .ok moves) :
    ∃ legal : Move → Bool, (∀ m ∈ p.pseudoLegalMoves, p.isLegal m = .ok (legal m)) ∧
      moves = p.pseudoLegalMoves.filter legal := by
  obtain ⟨out, found, h⟩ := bind_eq_ok_iff.1 h
  obtain rfl := Except.ok.inj h
  obtain ⟨legal, all, rfl⟩ := exists_of_addLegal found
  exact ⟨legal, all, by simp⟩

/-! ## Counts -/

def countAfter (p : Position) (count : Position → Except Failure Nat) (m : Move) :
    Except Failure Nat := do count (← p.play m)

theorem sumOver_cons (p : Position) (count : Position → Except Failure Nat) (m : Move)
    (rest : List Move) : p.sumOver count (m :: rest) =
      p.countAfter count m >>= fun here => p.sumOver count rest >>= fun others =>
        pure (here + others) := by
  rw [sumOver, countAfter]
  cases p.play m <;> rfl

theorem exists_of_sumOver (h : p.sumOver count moves = .ok n) :
    ∃ value : Move → Nat, (∀ m ∈ moves, p.countAfter count m = .ok (value m)) ∧
      n = (moves.map value).foldr (· + ·) 0 := by
  refine ⟨fun m => (p.countAfter count m).toOption.getD 0, ?_⟩
  induction moves generalizing n with
  | nil => exact ⟨nofun, (Except.ok.inj h).symm⟩
  | cons m rest ih =>
    rw [sumOver_cons] at h
    obtain ⟨here, counted, h⟩ := bind_eq_ok_iff.1 h
    obtain ⟨others, summed, h⟩ := bind_eq_ok_iff.1 h
    obtain ⟨all, rfl⟩ := ih summed
    have known : (p.countAfter count m).toOption.getD 0 = here := by rw [counted]; rfl
    have first : p.countAfter count m = .ok ((p.countAfter count m).toOption.getD 0) := by
      rw [known, counted]
    refine ⟨List.forall_mem_cons.2 ⟨first, all⟩, ?_⟩
    rw [List.map_cons, known, List.foldr_cons]
    exact (Except.ok.inj h).symm

theorem yields_sumOver (value : Move → Nat)
    (each : ∀ m ∈ moves, Yields (p.countAfter count m) (· = value m)) :
    Yields (p.sumOver count moves) (· = (moves.map value).foldr (· + ·) 0) := by
  induction moves with
  | nil => exact .ok rfl
  | cons m rest ih =>
    rw [sumOver_cons]
    refine (each m List.mem_cons_self).bind fun here same => ?_
    refine (ih fun k hk => each k (List.mem_cons_of_mem m hk)).bind fun others rest => .ok ?_
    rw [same, rest, List.map_cons, List.foldr_cons]

/-! ## Room -/

/-- Both counters can count `n` moves more. -/
def HasRoom (p : Position) (n : Nat) : Prop :=
  p.halfmove.toNat + n ≤ 0xffffffffffffffff ∧ p.fullmove.toNat + n ≤ 0xffffffffffffffff

instance (p : Position) (n : Nat) : Decidable (p.HasRoom n) := inferInstanceAs (Decidable (_ ∧ _))

theorem HasRoom.mono {k : Nat} (room : p.HasRoom n) (le : k ≤ n) : p.HasRoom k := by
  obtain ⟨half, full⟩ := room
  exact ⟨by omega, by omega⟩

theorem toNat_increment {k l : UInt64} (h : increment k = .ok l) : l.toNat = k.toNat + 1 := by
  rw [increment] at h
  split at h
  · obtain rfl := Except.ok.inj h
    rw [UInt64.toNat_add]
    have one : (1 : UInt64).toNat = 1 := rfl
    omega
  · cases h

/-- A move can be played and uses up the room for one. -/
theorem HasRoom.exists_play (room : p.HasRoom (n + 1)) (m : Move) :
    ∃ q, p.play m = .ok q ∧ q.HasRoom n := by
  obtain ⟨half, full⟩ := room
  cases here : p.piece? m.src with
  | none => exact ⟨p, by rw [play, here], by omega, by omega⟩
  | some piece =>
    obtain ⟨q, played, -⟩ := Position.exists_play here (by omega) (by omega)
    obtain ⟨-, -, -, -, counted, turned⟩ := played_of_play here played
    refine ⟨q, played, ?_, ?_⟩
    · split at counted
      · obtain zero : 0 = q.halfmove := Except.ok.inj counted
        rw [← zero, UInt64.toNat_zero]
        omega
      · rw [toNat_increment counted]
        omega
    · split at turned
      · rw [toNat_increment turned]
        omega
      · obtain same : p.fullmove = q.fullmove := Except.ok.inj turned
        rw [← same]
        omega

theorem not_overflows_isLegal (room : p.HasRoom 1) (m : Move) : ¬ Overflows (p.isLegal m) := by
  obtain ⟨q, played, -⟩ := room.exists_play m
  have last : ¬ Overflows
      (do return !(← (← p.play m).inCheck p.toMove) : Except Failure Bool) := by
    rw [played]
    show ¬ Overflows (liftM (q.inCheck p.toMove) >>= _)
    exact not_overflows_bind (not_overflows_liftM_fault _) fun check _ => not_overflows_ok _
  rw [isLegal]
  split
  · refine not_overflows_bind (not_overflows_liftM_fault _) fun way _ => ?_
    cases way
    · exact not_overflows_ok _
    · exact last
  · exact last

theorem not_overflows_addLegal (each : ∀ m ∈ moves, ¬ Overflows (p.isLegal m))
    (found : Array Move) : ¬ Overflows (p.addLegal found moves) := by
  induction moves generalizing found with
  | nil => exact not_overflows_ok _
  | cons m rest ih =>
    have later := ih fun k hk => each k (List.mem_cons_of_mem m hk)
    rw [addLegal]
    refine not_overflows_bind (each m List.mem_cons_self) fun answer _ => ?_
    cases answer
    · exact later found
    · simp only [if_true]
      split
      · exact later _
      · rintro ⟨o, h⟩
        cases h

/-- With room for one move more, the legal moves are found without an overflow. -/
theorem not_overflows_legalMoves (room : p.HasRoom 1) : ¬ Overflows p.legalMoves :=
  not_overflows_bind (not_overflows_addLegal (fun m _ => not_overflows_isLegal room m) _)
    fun _ _ => not_overflows_ok _

theorem not_overflows_sumOver (each : ∀ m ∈ moves, ¬ Overflows (p.countAfter count m)) :
    ¬ Overflows (p.sumOver count moves) := by
  induction moves with
  | nil => exact not_overflows_ok _
  | cons m rest ih =>
    have later := ih fun k hk => each k (List.mem_cons_of_mem m hk)
    rw [sumOver_cons]
    exact not_overflows_bind (each m List.mem_cons_self) fun _ _ =>
      not_overflows_bind later fun _ _ => not_overflows_ok _

/-- With room for all moves, counting them never ends by an overflow. -/
theorem not_overflows_perft (bulk : Bool) (room : p.HasRoom depth) :
    ¬ Overflows (p.perft bulk depth) := by
  induction depth generalizing p with
  | zero => exact not_overflows_ok 1
  | succ depth ih =>
    have one : p.HasRoom 1 := ⟨by have := room.1; omega, by have := room.2; omega⟩
    rw [perft]
    refine not_overflows_bind (not_overflows_legalMoves one) fun moves _ => ?_
    split
    · exact not_overflows_ok _
    · refine not_overflows_sumOver fun m _ => ?_
      obtain ⟨q, played, left⟩ := room.exists_play m
      rw [countAfter, played]
      exact ih left

end Position

end ChessMachine
