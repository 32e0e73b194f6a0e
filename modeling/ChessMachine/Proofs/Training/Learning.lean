import ChessMachine.Proofs.Rules.Clocks
import ChessMachine.Training.Learning

/-!
# What training changes

Training learns from one sample after another: a piece that moves, the squares as its colour sees
them, and who won. Each sample adds to the value of a kind and to two values of its table, and so
every weight is what it was, plus what the samples that touch it add, in the order of the moves.
What no sample touches stays the very number that it was.

## Main definitions

* `Sample`, `Game.samples` — what is learnt from, in the order of the moves.
* `Game.Makes` — at some time in a game a piece makes a move.
* `Game.essence` — a game without the moves from empty squares.

## Main results

* `Weights.materialOf_learn`, `Weights.get_tableOf_learn` — what a sample changes.
* `Game.mem_samples_iff` — the samples are the moves of pieces in decided games.
* `Weights.train_eq` — training learns the samples of all games.
* `Weights.train_touches_only_made` — which weights change, and what makes no difference.
-/
namespace ChessMachine

/-! ## Weights -/

/-- What is kept for each kind. -/
theorem PieceKind.get_set_index {β : Type} (values : Vector β 6) (k l : PieceKind) (b : β) :
    (values.set k.index b k.index.isLt).get l.index = if l = k then b else values.get l.index := by
  by_cases same : l = k
  · subst same
    rw [if_pos rfl]
    exact Vector.getElem_set_self l.index.isLt
  · have apart : k.index.val ≠ l.index.val :=
      fun h => same (index_injective (Fin.ext h)).symm
    rw [if_neg same]
    exact Vector.getElem_set_ne k.index.isLt l.index.isLt apart

namespace Weights

variable {w : Weights} {k l : PieceKind} {s t : Square} {v : Float}

theorem materialOf_setMaterial :
    (w.setMaterial k v).materialOf l = if l = k then v else w.materialOf l :=
  PieceKind.get_set_index w.material k l v

theorem get_tableOf_setSquare : ((w.setSquare k s v).tableOf l).get t =
    if l = k ∧ t = s then v else (w.tableOf l).get t := by
  have table : (w.setSquare k s v).tableOf l =
      if l = k then (w.tableOf k).set s v else w.tableOf l :=
    PieceKind.get_set_index w.tables k l _
  rw [table]
  by_cases kind : l = k
  · subst kind
    simp only [if_true, SquareTable.get_set, true_and]
  · simp only [kind, if_false, false_and]

end Weights

/-! ## Samples -/

/-- A move of a piece in a game whose result has the given sign. -/
structure Sample where
  sign : Float
  piece : Piece
  move : Move

namespace Sample

variable {x : Sample} {k : PieceKind} {s : Square}

/-- What the sample adds to a value, or takes away from it. -/
def change (x : Sample) : Float := learningRate * x.sign * Float.ofInt x.piece.color.sign

/-- The square that the piece left, as its colour sees the board. -/
def src (x : Sample) : Square := x.move.src.orientedFor x.piece.color

/-- The square where the piece arrived, as its colour sees the board. -/
def dst (x : Sample) : Square := x.move.dst.orientedFor x.piece.color

/-- The piece is of a kind, and it left a square or arrived there. -/
def Touches (x : Sample) (k : PieceKind) (s : Square) : Prop :=
  x.piece.kind = k ∧ (s = x.src ∨ s = x.dst)

instance (x : Sample) (k : PieceKind) (s : Square) : Decidable (x.Touches k s) :=
  inferInstanceAs (Decidable (_ ∧ _))

/-- The value of a square after the sample. A piece may arrive where it was. -/
def adjust (x : Sample) (s : Square) (v : Float) : Float :=
  let v := if s = x.src then v - x.change else v
  if s = x.dst then v + x.change else v

end Sample

namespace Weights

variable {w : Weights} {x : Sample} {xs : List Sample} {k : PieceKind} {s : Square}

def learn (w : Weights) (x : Sample) : Weights := w.learnMove x.sign x.piece x.move

/-- A sample changes the value of its own kind only. -/
theorem materialOf_learn : (w.learn x).materialOf k =
    if x.piece.kind = k then w.materialOf k + x.change else w.materialOf k := by
  refine materialOf_setMaterial.trans ?_
  by_cases kind : k = x.piece.kind
  · subst kind
    simp only [if_true]
    rfl
  · rw [if_neg kind, if_neg (Ne.symm kind)]

/-- A sample changes the table of its own kind only, on the squares that it touches. -/
theorem get_tableOf_learn : ((w.learn x).tableOf k).get s =
    if x.Touches k s then x.adjust s ((w.tableOf k).get s) else (w.tableOf k).get s := by
  -- first the square that is left, then the one where the piece arrives
  let departed := (w.setMaterial x.piece.kind (w.materialOf x.piece.kind + x.change)).setSquare
    x.piece.kind x.src ((w.tableOf x.piece.kind).get x.src - x.change)
  have left (l : PieceKind) (t : Square) : (departed.tableOf l).get t =
      if l = x.piece.kind ∧ t = x.src then (w.tableOf x.piece.kind).get x.src - x.change
      else (w.tableOf l).get t := get_tableOf_setSquare
  have arrived : ((w.learn x).tableOf k).get s =
      if k = x.piece.kind ∧ s = x.dst then (departed.tableOf x.piece.kind).get x.dst + x.change
      else (departed.tableOf k).get s := get_tableOf_setSquare
  rw [arrived, left, left]
  by_cases kind : x.piece.kind = k
  · subst kind
    simp only [true_and, Sample.Touches, Sample.adjust]
    grind
  · simp [Sample.Touches, kind, Ne.symm kind]

/-- A value of a kind gets what the samples of that kind add, one after another. -/
theorem materialOf_foldl_learn : (xs.foldl learn w).materialOf k =
    (xs.filter (·.piece.kind = k)).foldl (fun v x => v + x.change) (w.materialOf k) := by
  rw [List.foldl_filter]
  refine (List.foldl_hom (fun w : Weights => w.materialOf k) fun w x => ?_).symm
  simp only [materialOf_learn, decide_eq_true_eq]

/-- A value of a table gets what the samples that touch it add or take away. -/
theorem get_tableOf_foldl_learn : ((xs.foldl learn w).tableOf k).get s =
    (xs.filter (·.Touches k s)).foldl (fun v x => x.adjust s v) ((w.tableOf k).get s) := by
  rw [List.foldl_filter]
  refine (List.foldl_hom (fun w : Weights => (w.tableOf k).get s) fun w x => ?_).symm
  simp only [get_tableOf_learn, decide_eq_true_eq]

end Weights

/-! ## Replayed moves -/

namespace Turn

/-- A piece makes the move: the square is not empty. -/
def IsMade (t : Turn) : Prop := t.before.isOccupied t.move.src = true

instance (t : Turn) : Decidable t.IsMade := inferInstanceAs (Decidable (_ = _))

def sample? (sign : Float) (t : Turn) : Option Sample :=
  (t.before.piece? t.move.src).map fun piece => ⟨sign, piece, t.move⟩

theorem piece?_of_not_isMade {t : Turn} (unmade : ¬ t.IsMade) :
    t.before.piece? t.move.src = none := Option.not_isSome_iff_eq_none.1 unmade

theorem sample?_of_not_isMade {t : Turn} {sign : Float} (unmade : ¬ t.IsMade) :
    t.sample? sign = none := by
  rw [sample?, piece?_of_not_isMade unmade, Option.map_none]

end Turn

namespace Position

variable {p q : Position} {m : Move} {ms before after : List Move} {t : Turn}

/-- A move from an empty square changes nothing. -/
theorem play_of_empty (empty : p.piece? m.src = none) : p.play m = .ok p := by rw [play, empty]

theorem playAll_append : p.playAll (before ++ after) = p.playAll before >>= (·.playAll after) := by
  induction before generalizing p with
  | nil => rfl
  | cons m before ih =>
    rw [List.cons_append, playAll, playAll]
    cases p.play m with
    | error o => rfl
    | ok q => exact ih

def madeMoves (p : Position) (ms : List Move) : List Move :=
  ((p.turns ms).filter (·.IsMade)).map Turn.move

/-- A run goes the same way without the moves from empty squares. -/
theorem turns_madeMoves (run : p.playAll ms = .ok q) :
    p.playAll (p.madeMoves ms) = .ok q ∧
      p.turns (p.madeMoves ms) = (p.turns ms).filter (·.IsMade) := by
  induction ms generalizing p with
  | nil => exact ⟨run, rfl⟩
  | cons m rest ih =>
    obtain ⟨r, played, run⟩ := playAll_cons_eq_ok_iff.1 run
    obtain ⟨again, same⟩ := ih run
    by_cases made : (Turn.mk p m r).IsMade
    · have kept : (Turn.mk p m r :: r.turns rest).filter (·.IsMade) =
          ⟨p, m, r⟩ :: (r.turns rest).filter (·.IsMade) :=
        List.filter_cons_of_pos (decide_eq_true made)
      have moves : p.madeMoves (m :: rest) = m :: r.madeMoves rest := by
        rw [madeMoves, turns_cons played, kept]
        rfl
      rw [moves, turns_cons played, turns_cons played, same, kept]
      exact ⟨playAll_cons_eq_ok_iff.2 ⟨r, played, again⟩, rfl⟩
    · -- the position stays as it is, so the rest goes on from it
      have dropped : (Turn.mk p m r :: r.turns rest).filter (·.IsMade) =
          (r.turns rest).filter (·.IsMade) :=
        List.filter_cons_of_neg (mt of_decide_eq_true made)
      have empty : p.piece? m.src = none := Turn.piece?_of_not_isMade made
      obtain rfl := Except.ok.inj ((play_of_empty empty).symm.trans played)
      have moves : p.madeMoves (m :: rest) = p.madeMoves rest := by
        rw [madeMoves, turns_cons played, dropped]
        rfl
      rw [moves, turns_cons played, dropped]
      exact ⟨again, same⟩

/-- The turns of a run go on from where its beginning leads. -/
theorem turns_append (run : p.playAll before = .ok q) (after : List Move) :
    p.turns (before ++ after) = p.turns before ++ q.turns after := by
  induction before generalizing p with
  | nil =>
    obtain rfl := Except.ok.inj run
    rfl
  | cons m before ih =>
    obtain ⟨r, played, run⟩ := playAll_cons_eq_ok_iff.1 run
    rw [List.cons_append, turns_cons played, turns_cons played, ih run, List.cons_append]

/-- Every turn is a move in the position that the moves before it lead to. -/
theorem exists_of_mem_turns (mem : t ∈ p.turns ms) : ∃ before after,
    ms = before ++ t.move :: after ∧ p.playAll before = .ok t.before := by
  induction ms generalizing p with
  | nil => cases mem
  | cons m rest ih =>
    cases played : p.play m with
    | error o =>
      rw [turns, played] at mem
      cases mem
    | ok r =>
      rw [turns_cons played] at mem
      rcases List.mem_cons.1 mem with rfl | mem
      · exact ⟨[], rest, rfl, rfl⟩
      · obtain ⟨before, after, rfl, run⟩ := ih mem
        exact ⟨m :: before, after, rfl, playAll_cons_eq_ok_iff.2 ⟨r, played, run⟩⟩

end Position

/-! ## Games -/

namespace Game

variable {g : Game} {piece : Piece} {m : Move} {x : Sample}

def IsDecided (g : Game) : Prop := g.result ≠ .draw

instance (g : Game) : Decidable g.IsDecided := inferInstanceAs (Decidable (_ ≠ _))

/-- All moves can be played: no counter overflows. -/
def Replays (g : Game) : Prop := ∃ p, g.start.playAll g.moves = .ok p

/-- At some time in the game a piece makes a move: it stands where the move starts. -/
def Makes (g : Game) (piece : Piece) (m : Move) : Prop :=
  ∃ before after p, g.moves = before ++ m :: after ∧ g.start.playAll before = .ok p ∧
    p.piece? m.src = some piece

def samples (g : Game) : List Sample :=
  match g.result.sign with
  | none => []
  | some sign => (g.start.turns g.moves).filterMap (Turn.sample? sign)

/-- The game without the moves from empty squares. -/
def essence (g : Game) : Game := { g with moves := g.start.madeMoves g.moves }

theorem isDecided_iff : g.IsDecided ↔ g.result.sign.isSome = true := by
  unfold IsDecided
  cases g.result <;> simp [GameResult.sign]

/-- Nothing is learnt from a draw. -/
theorem samples_of_drawn (drawn : ¬ g.IsDecided) : g.samples = [] := by
  rw [isDecided_iff, Option.not_isSome_iff_eq_none] at drawn
  rw [samples, drawn]

/-- What a piece makes in a game is a move of one of its turns. -/
theorem makes_iff (replays : g.Replays) : g.Makes piece m ↔
    ∃ t ∈ g.start.turns g.moves, t.before.piece? t.move.src = some piece ∧ t.move = m := by
  constructor
  · rintro ⟨before, after, p, moves, run, here⟩
    obtain ⟨q, all⟩ := replays
    rw [moves, Position.playAll_append, run] at all
    obtain ⟨r, played, -⟩ := Position.playAll_cons_eq_ok_iff.1 all
    refine ⟨⟨p, m, r⟩, ?_, here, rfl⟩
    rw [moves, Position.turns_append run, Position.turns_cons played]
    exact List.mem_append_right _ List.mem_cons_self
  · rintro ⟨t, mem, here, rfl⟩
    obtain ⟨before, after, moves, run⟩ := Position.exists_of_mem_turns mem
    exact ⟨before, after, t.before, moves, run, here⟩

theorem forall_makes_iff (replays : g.Replays) {holds : Piece → Move → Prop} :
    (∀ piece m, g.Makes piece m → holds piece m) ↔
      ∀ t ∈ g.start.turns g.moves, ∀ piece ∈ t.before.piece? t.move.src, holds piece t.move := by
  simp only [makes_iff replays]
  constructor
  · exact fun h t mem piece here => h piece t.move ⟨t, mem, here, rfl⟩
  · rintro h piece _ ⟨t, mem, here, rfl⟩
    exact h t mem piece here

/-- The samples are the moves that pieces make in a decided game. -/
theorem mem_samples_iff (replays : g.Replays) :
    x ∈ g.samples ↔ g.result.sign = some x.sign ∧ g.Makes x.piece x.move := by
  rw [samples, makes_iff replays]
  cases g.result.sign with
  | none => exact ⟨nofun, nofun⟩
  | some sign =>
    simp only [List.mem_filterMap, Turn.sample?, Option.map_eq_some_iff, Option.some.injEq]
    constructor
    · rintro ⟨t, mem, piece, here, rfl⟩
      exact ⟨rfl, t, mem, here, rfl⟩
    · rintro ⟨rfl, t, mem, here, move⟩
      exact ⟨t, mem, x.piece, here, by rw [move]⟩

/-- Moves from empty squares teach nothing. -/
theorem samples_essence (replays : g.Replays) : g.essence.samples = g.samples := by
  obtain ⟨p, run⟩ := replays
  have same := (Position.turns_madeMoves run).2
  rw [samples, samples, essence]
  cases g.result.sign with
  | none => rfl
  | some sign =>
    have taught (t : Turn) : (if t.IsMade then t.sample? sign else none) = t.sample? sign := by
      split
      · rfl
      · rename_i unmade
        exact (Turn.sample?_of_not_isMade unmade).symm
    dsimp only
    rw [same, List.filterMap_filter]
    simp only [decide_eq_true_eq, taught]

/-- A game that can be played can be played without the moves from empty squares. -/
theorem Replays.essence (replays : g.Replays) : g.essence.Replays := by
  obtain ⟨p, run⟩ := replays
  exact ⟨p, (Position.turns_madeMoves run).1⟩

end Game

/-! ## Training -/

namespace Weights

variable {w : Weights} {p q : Position} {ms : List Move} {sign : Float} {games : List Game}

/-- The moves of a run are learnt one by one. -/
theorem learnMoves_eq (run : p.playAll ms = .ok q) : w.learnMoves sign p ms =
    ⟨((p.turns ms).filterMap (Turn.sample? sign)).foldl learn w, .ok ()⟩ := by
  induction ms generalizing w p with
  | nil => rfl
  | cons m rest ih =>
    obtain ⟨r, played, run⟩ := Position.playAll_cons_eq_ok_iff.1 run
    rw [learnMoves, played, Position.turns_cons played, List.filterMap_cons]
    dsimp only
    rw [ih run, learnIn, Turn.sample?]
    cases p.piece? m.src <;> rfl

/-- Training learns from the samples of all games, in order. -/
theorem train_eq (replays : ∀ g ∈ games, g.IsDecided → g.Replays) : w.train games =
    ⟨(games.flatMap Game.samples).foldl learn w, .ok (games.countP (·.IsDecided))⟩ := by
  induction games generalizing w with
  | nil => rfl
  | cons g rest ih =>
    obtain ⟨first, others⟩ := List.forall_mem_cons.1 replays
    rw [train, List.flatMap_cons, List.foldl_append, List.countP_cons, Game.samples]
    cases sign : g.result.sign with
    | none =>
      have drawn : ¬ g.IsDecided := by simp [Game.isDecided_iff, sign]
      simp only [drawn]
      exact ih others
    | some s =>
      have decided : g.IsDecided := by simp [Game.isDecided_iff, sign]
      obtain ⟨p, run⟩ := first decided
      simp only [learnMoves_eq run, ih others, decided]
      rfl

/-- Drawn games and moves from empty squares make no difference. -/
theorem train_essence (replays : ∀ g ∈ games, g.IsDecided → g.Replays) :
    w.train ((games.filter (·.IsDecided)).map Game.essence) = w.train games := by
  have samples : ((games.filter (·.IsDecided)).map Game.essence).flatMap Game.samples =
      games.flatMap Game.samples := by
    induction games with
    | nil => rfl
    | cons g rest ih =>
      obtain ⟨first, others⟩ := List.forall_mem_cons.1 replays
      by_cases decided : g.IsDecided
      · simp [decided, Game.samples_essence (first decided), ← ih others]
      · simp [decided, Game.samples_of_drawn decided, ← ih others]
  have count : ((games.filter (·.IsDecided)).map Game.essence).countP (·.IsDecided) =
      games.countP (·.IsDecided) := by
    have same : (decide <| ·.IsDecided) ∘ Game.essence = (decide <| ·.IsDecided) := rfl
    simp only [List.countP_map, same, List.countP_filter, Bool.and_self]
  rw [train_eq replays, train_eq, samples, count]
  intro g mem _
  obtain ⟨game, listed, rfl⟩ := List.mem_map.1 mem
  obtain ⟨played, decided⟩ := List.mem_filter.1 listed
  exact (replays game played (of_decide_eq_true decided)).essence

/-- Every sample is a move of a piece in a decided game. -/
theorem exists_of_mem_samples (replays : ∀ g ∈ games, g.IsDecided → g.Replays) {x : Sample}
    (mem : x ∈ games.flatMap Game.samples) :
    ∃ g ∈ games, g.IsDecided ∧ g.Makes x.piece x.move := by
  obtain ⟨g, game, mem⟩ := List.mem_flatMap.1 mem
  have decided : g.IsDecided := by
    refine Decidable.of_not_not fun drawn => ?_
    simp [Game.samples_of_drawn drawn] at mem
  exact ⟨g, game, decided, ((Game.mem_samples_iff (replays g game decided)).1 mem).2⟩

/-- Training counts the decided games, and drawn games and moves from empty squares make no
difference to what is learnt. Every value of a kind gets what the moves of that kind add, and every
value of a table what is added or taken away by the moves that start or end there, in the order in
which they are made. So a value of a kind is the same as before unless a piece of that kind moves
in a decided game, and a value of its table unless one moves from that square or to it, as its
colour sees the board. The kind is that of the piece which stands where the move starts, before any
promotion. -/
theorem train_touches_only_made (w : Weights) {games : List Game}
    (replays : ∀ g ∈ games, g.IsDecided → g.Replays) :
    (w.train games).outcome = .ok (games.countP (·.IsDecided)) ∧
    w.train ((games.filter (·.IsDecided)).map Game.essence) = w.train games ∧
    (∀ k, (w.train games).weights.materialOf k =
      ((games.flatMap Game.samples).filter (·.piece.kind = k)).foldl (fun v x => v + x.change)
        (w.materialOf k)) ∧
    (∀ k s, ((w.train games).weights.tableOf k).get s =
      ((games.flatMap Game.samples).filter (·.Touches k s)).foldl (fun v x => x.adjust s v)
        ((w.tableOf k).get s)) ∧
    (∀ k, (∀ g ∈ games, g.IsDecided → ∀ piece m, g.Makes piece m → piece.kind ≠ k) →
      (w.train games).weights.materialOf k = w.materialOf k) ∧
    ∀ k s, (∀ g ∈ games, g.IsDecided → ∀ piece m, g.Makes piece m → piece.kind = k →
        s ≠ m.src.orientedFor piece.color ∧ s ≠ m.dst.orientedFor piece.color) →
      ((w.train games).weights.tableOf k).get s = (w.tableOf k).get s := by
  have trained : (w.train games).weights = (games.flatMap Game.samples).foldl learn w :=
    congrArg Lesson.weights (train_eq replays)
  refine ⟨congrArg Lesson.outcome (train_eq replays), train_essence replays, fun k => ?_,
    fun k s => ?_, fun k apart => ?_, fun k s apart => ?_⟩
  · rw [trained, materialOf_foldl_learn]
  · rw [trained, get_tableOf_foldl_learn]
  · have none : (games.flatMap Game.samples).filter (·.piece.kind = k) = [] := by
      refine List.filter_eq_nil_iff.2 fun x mem => ?_
      obtain ⟨g, game, decided, makes⟩ := exists_of_mem_samples replays mem
      simpa using apart g game decided x.piece x.move makes
    rw [trained, materialOf_foldl_learn, none]
    rfl
  · have none : (games.flatMap Game.samples).filter (·.Touches k s) = [] := by
      refine List.filter_eq_nil_iff.2 fun x mem touches => ?_
      obtain ⟨kind, square⟩ := of_decide_eq_true touches
      obtain ⟨g, game, decided, makes⟩ := exists_of_mem_samples replays mem
      obtain ⟨src, dst⟩ := apart g game decided x.piece x.move makes kind
      exact square.elim src dst
    rw [trained, get_tableOf_foldl_learn, none]
    rfl

/-- A pawn takes a rook and becomes a knight, which moves on. Before, a move starts from an empty
square. -/
def knightingGame : Game where
  start :=
    { Position.empty with
      board := (Board.empty.place ⟨.black, .pawn⟩ ⟨.a, Rank.second .white⟩).place ⟨.white, .rook⟩
        ⟨.b, Rank.first .white⟩
      toMove := .black }
  moves := [⟨⟨.h, Rank.second .black⟩, ⟨.h, Rank.third .black⟩, none⟩,
    ⟨⟨.a, Rank.second .white⟩, ⟨.b, Rank.first .white⟩, some .knight⟩,
    ⟨⟨.b, Rank.first .white⟩, ⟨.c, Rank.third .white⟩, none⟩]
  result := .blackWin

/-- The rook that was taken never moved. The pawn left its square as a pawn, although it arrived as
a knight. -/
theorem train_touches_only_made_knighting :
    let games := [knightingGame, { knightingGame with result := .draw }]
    let trained := Weights.initial.train games
    trained.outcome = .ok 1 ∧
      Weights.initial.train [{ knightingGame with moves := knightingGame.moves.drop 1 }] = trained ∧
      trained.weights.materialOf .rook = Weights.initial.materialOf .rook ∧
      (trained.weights.tableOf .knight).get ⟨.h, Rank.second .black⟩ =
        (Weights.initial.tableOf .knight).get ⟨.h, Rank.second .black⟩ := by
  intro games trained
  have replays : knightingGame.Replays := Position.HasRoom.exists_playAll (by decide)
  have decided (g : Game) (mem : g ∈ games) (h : g.IsDecided) : g = knightingGame := by
    rcases List.mem_cons.1 mem with rfl | mem
    · rfl
    · obtain rfl := List.mem_singleton.1 mem
      exact absurd rfl h
  obtain ⟨outcome, essence, -, -, material, table⟩ := train_touches_only_made Weights.initial
    fun g mem h => decided g mem h ▸ replays
  refine ⟨outcome, ?_, material .rook ?_, table .knight ⟨.h, Rank.second .black⟩ ?_⟩
  · have made : knightingGame.start.madeMoves knightingGame.moves = knightingGame.moves.drop 1 := by
      decide +kernel
    have kept : (games.filter (·.IsDecided)).map Game.essence =
        [{ knightingGame with moves := knightingGame.moves.drop 1 }] := by
      rw [← made]
      rfl
    rw [← kept]
    exact essence
  · intro g mem h
    rw [decided g mem h, Game.forall_makes_iff replays]
    decide +kernel
  · intro g mem h
    rw [decided g mem h, Game.forall_makes_iff replays]
    decide +kernel

end Weights

end ChessMachine
