import ChessMachine.Engine.Session
import ChessMachine.Proofs.Rules.Soundness
import Mathlib.Data.List.TakeDrop
import Mathlib.Data.List.TakeWhile

/-!
# What commands leave behind

A command that fails leaves the engine as it was. Along a history of commands, the position and
the weights are those that the successful changes alone would have made, and a position given with
its moves is the one that the moves reach one by one.

## Main definitions

* `Reply.Returns`, `Reply.Succeeds` — how a command ends.
* `Engine.Effect` — everything that a command can do to the engine.
* `Engine.Run` — histories; `Engine.effective` — the commands that changed something.

## Main results

* `Engine.effect_execute` — a command does nothing else.
* `Engine.run_position_moves_iff` — moves in a row and one by one.
* `Engine.failures_change_nothing` — failures leave no trace.
-/
namespace ChessMachine

/-! ## How commands end -/

namespace Reply

/-- The command returns. An overflow is not returned as an error, it breaks the session off. -/
def Returns (r : Reply) : Prop := ∀ o, r.outcome ≠ .error (.failure (.overflow o))

def Succeeds (r : Reply) : Prop := ∃ goOn, r.outcome = .ok goOn

variable {r : Reply} {e : Engine}

theorem Succeeds.returns (h : r.Succeeds) : r.Returns := by
  obtain ⟨goOn, done⟩ := h
  intro o overflow
  cases done.symm.trans overflow

theorem engine_answer (before : String) (text : Except EngineError String) :
    (answer e before text).engine = e := by
  cases text <;> rfl

/-- A change succeeds, with a given engine, exactly if that is the engine to come. -/
theorem change_succeeds_iff {next : Except EngineError Engine} {e' : Engine} :
    (change e next).Succeeds ∧ (change e next).engine = e' ↔ next = .ok e' := by
  cases next with
  | error err => exact ⟨nofun, nofun⟩
  | ok next => exact ⟨fun h => congrArg _ h.2, fun h => ⟨⟨true, rfl⟩, Except.ok.inj h⟩⟩

end Reply

namespace Command

/-- Commands that set a position or play on from the one there is. -/
def setsPosition : Command → Bool
  | position _ | makeMove _ => true
  | _ => false

def trains : Command → Bool
  | train _ => true
  | _ => false

end Command

namespace Engine

variable {files : Files} {e e' : Engine} {command : Command} {history : List (Files × Command)}

/-- What a command can do to an engine: nothing, set the position if it succeeds, or teach the
weights, which an overflow may break off. -/
inductive Effect (e : Engine) (command : Command) (r : Reply) : Prop where
  | nothing (same : r.engine = e)
  | moved (sets : command.setsPosition = true) (done : r.Succeeds) (p : Position)
    (state : r.engine = { e with position := p })
  | learnt (trains : command.trains = true) (done : r.Returns → r.Succeeds) (w : Weights)
    (state : r.engine = { e with weights := w })

theorem position_eq_ok_iff {found : Except EngineError Position} :
    (do return { e with position := ← found }) = Except.ok e' ↔
      ∃ p, found = .ok p ∧ e' = { e with position := p } := by
  rw [bind_eq_ok_iff]
  exact exists_congr fun p => and_congr_right fun _ => pure_eq_ok_iff

/-- A move is played from its text if the text can be read and the move be played. -/
theorem playText_eq_ok_iff {text : String} : e.playText text = .ok e' ↔
    ∃ m p, Move.ofText text = .ok m ∧ e.position.play m = .ok p ∧
      e' = { e with position := p } := by
  rw [playText, bind_eq_ok_iff]
  constructor
  · rintro ⟨m, read, played⟩
    obtain ⟨p, moved, rfl⟩ := position_eq_ok_iff.1 played
    exact ⟨m, p, mapError_eq_ok_iff.1 read, mapError_eq_ok_iff.1 moved, rfl⟩
  · rintro ⟨m, p, read, played, rfl⟩
    exact ⟨m, mapError_eq_ok_iff.2 read,
      position_eq_ok_iff.2 ⟨p, mapError_eq_ok_iff.2 played, rfl⟩⟩

/-- A change that can only be one of the position. -/
theorem effect_change (sets : command.setsPosition = true) {next : Except EngineError Engine}
    (only : ∀ e', next = .ok e' → ∃ p, e' = { e with position := p }) :
    e.Effect command (.change e next) := by
  cases next with
  | error err => exact .nothing rfl
  | ok e' =>
    obtain ⟨p, state⟩ := only e' rfl
    exact .moved sets ⟨true, rfl⟩ p state

/-- Training does nothing but teach the weights. -/
theorem effect_trainReply (path : String) :
    e.Effect (.train path) (e.trainReply files path) := by
  unfold trainReply
  cases readGames files path with
  | error err => exact .nothing rfl
  | ok games =>
    refine .learnt rfl ?_ (e.weights.train games).weights (Reply.engine_answer _ _)
    dsimp only
    cases (e.weights.train games).outcome with
    | error o => exact fun returns => absurd rfl (returns o)
    | ok n => exact fun _ => ⟨true, rfl⟩

theorem engine_evalReply (pretty : Bool) : (e.evalReply pretty).engine = e := by
  unfold evalReply
  split
  · split
    · exact Reply.engine_answer _ _
    · rfl
  · exact Reply.engine_answer _ _

theorem engine_splitReply (depth : Nat) : (e.splitReply depth).engine = e := by
  unfold splitReply
  exact Reply.engine_answer _ _

/-- Everything that a command can do. -/
theorem effect_execute (files : Files) (e : Engine) (command : Command) :
    e.Effect command (e.execute files command) := by
  cases command with
  | position words =>
    refine effect_change rfl fun e' found => ?_
    obtain ⟨p, -, state⟩ := position_eq_ok_iff.1 found
    exact ⟨p, state⟩
  | makeMove text =>
    refine effect_change rfl fun e' found => ?_
    obtain ⟨m, p, -, -, state⟩ := playText_eq_ok_iff.1 found
    exact ⟨p, state⟩
  | train path => exact effect_trainReply path
  | eval pretty => exact .nothing (engine_evalReply pretty)
  | splitPerft depth => exact .nothing (engine_splitReply depth)
  | display | exit | fen => exact .nothing rfl
  | best | disasm | go | moves | perft => exact .nothing (Reply.engine_answer _ _)

/-! ## One command -/

/-- A command that returns without success leaves the engine as it was. -/
theorem engine_execute_of_fails (returns : (e.execute files command).Returns)
    (fails : ¬ (e.execute files command).Succeeds) : (e.execute files command).engine = e := by
  cases effect_execute files e command with
  | nothing same => exact same
  | moved _ done => exact absurd done fails
  | learnt _ done => exact absurd (done returns) fails

/-- Only commands that set a position change it, and only if they succeed. -/
theorem succeeds_of_position_ne
    (changed : (e.execute files command).engine.position ≠ e.position) :
    (e.execute files command).Succeeds ∧ command.setsPosition = true := by
  cases effect_execute files e command with
  | nothing same => exact absurd (congrArg position same) changed
  | moved sets done => exact ⟨done, sets⟩
  | learnt _ _ w state => exact absurd (congrArg position state) changed

/-- Only training changes the weights, and it succeeds unless an overflow breaks it off. -/
theorem succeeds_of_weights_ne (returns : (e.execute files command).Returns)
    (changed : (e.execute files command).engine.weights ≠ e.weights) :
    (e.execute files command).Succeeds ∧ command.trains = true := by
  cases effect_execute files e command with
  | nothing same => exact absurd (congrArg weights same) changed
  | moved _ _ p state => exact absurd (congrArg weights state) changed
  | learnt trains done => exact ⟨done returns, trains⟩

/-! ## Histories -/

/-- A history of commands, each with the files that it finds, all of which end as they should. -/
inductive Run (ends : Reply → Prop) : Engine → List (Files × Command) → Engine → Prop where
  | nil (e : Engine) : Run ends e [] e
  | cons {e e' : Engine} {files : Files} {command : Command} {history : List (Files × Command)}
    (this : ends (e.execute files command))
    (rest : Run ends (e.execute files command).engine history e') :
    Run ends e ((files, command) :: history) e'

/-- The commands of a history that set the position or trained the weights, and succeeded. -/
def effective (e : Engine) : List (Files × Command) → List (Files × Command)
  | [] => []
  | (files, command) :: rest =>
    let reply := e.execute files command
    if reply.outcome.toBool && (command.setsPosition || command.trains) then
      (files, command) :: reply.engine.effective rest
    else reply.engine.effective rest

/-- A command that is passed over left the engine as it was. -/
theorem engine_execute_of_idle (returns : (e.execute files command).Returns)
    (idle : ¬ ((e.execute files command).outcome.toBool &&
      (command.setsPosition || command.trains)) = true) :
    (e.execute files command).engine = e := by
  have succeeded (done : (e.execute files command).Succeeds) :
      (e.execute files command).outcome.toBool = true := by
    obtain ⟨goOn, outcome⟩ := done
    rw [outcome]
    rfl
  cases effect_execute files e command with
  | nothing same => exact same
  | moved sets done => exact absurd (by rw [succeeded done, sets]; rfl) idle
  | learnt trains done =>
    exact absurd (by rw [succeeded (done returns), trains, Bool.or_true]; rfl) idle

/-- The effective commands of a history lead to the same engine, and each of them succeeds. -/
theorem Run.effective (run : Run Reply.Returns e history e') :
    Run Reply.Succeeds e (e.effective history) e' := by
  induction run with
  | nil e => exact .nil e
  | @cons e e' files command history returns rest ih =>
    rw [Engine.effective]
    split
    · rename_i kept
      refine .cons ?_ ih
      obtain ⟨succeeded, -⟩ := Bool.and_eq_true_iff.1 kept
      cases outcome : (e.execute files command).outcome with
      | error err =>
        rw [outcome] at succeeded
        cases succeeded
      | ok goOn => exact ⟨goOn, outcome⟩
    · -- the command left the engine as it was, so the rest goes on from the same state
      rename_i idle
      rwa [engine_execute_of_idle returns idle] at ih ⊢

/-- What differs at the end of a history was changed by a command that can change it. -/
theorem Run.exists_of_ne {ends : Reply → Prop} {β : Type} (view : Engine → β)
    (changes : Command → Bool)
    (step : ∀ files e command, ends (e.execute files command) →
      view (e.execute files command).engine ≠ view e → changes command = true)
    (run : Run ends e history e') (changed : view e' ≠ view e) :
    ∃ x ∈ history, changes x.2 = true := by
  induction run with
  | nil e => exact absurd rfl changed
  | @cons e e' files command history this rest ih =>
    by_cases same : view (e.execute files command).engine = view e
    · obtain ⟨x, mem, kind⟩ := ih (same ▸ changed)
      exact ⟨x, List.mem_cons_of_mem _ mem, kind⟩
    · exact ⟨_, List.mem_cons_self, step files e command this same⟩

/-- In a history that changes the position, there is a command that sets it. -/
theorem Run.exists_setsPosition (run : Run Reply.Succeeds e history e')
    (changed : e'.position ≠ e.position) : ∃ x ∈ history, x.2.setsPosition = true :=
  run.exists_of_ne position Command.setsPosition
    (fun _ _ _ _ differs => (succeeds_of_position_ne differs).2) changed

theorem Run.exists_trains (run : Run Reply.Succeeds e history e')
    (changed : e'.weights ≠ e.weights) : ∃ x ∈ history, x.2.trains = true :=
  run.exists_of_ne weights Command.trains
    (fun _ _ _ done differs => (succeeds_of_weights_ne done.returns differs).2) changed

/-! ## Positions with moves -/

theorem run_cons_iff {ends : Reply → Prop} :
    Run ends e ((files, command) :: history) e' ↔
      ends (e.execute files command) ∧ Run ends (e.execute files command).engine history e' := by
  constructor
  · intro run
    cases run with
    | cons this rest => exact ⟨this, rest⟩
  · exact fun ⟨this, rest⟩ => .cons this rest

theorem run_nil_iff {ends : Reply → Prop} : Run ends e [] e' ↔ e' = e := by
  constructor
  · intro run
    cases run
    rfl
  · rintro rfl
    exact .nil _

/-- A change of the engine, followed by a history. -/
theorem run_change_iff {next : Except EngineError Engine}
    (reply : e.execute files command = .change e next) :
    Run Reply.Succeeds e ((files, command) :: history) e' ↔
      ∃ e₁, next = .ok e₁ ∧ Run Reply.Succeeds e₁ history e' := by
  rw [run_cons_iff, reply]
  constructor
  · rintro ⟨done, rest⟩
    exact ⟨_, Reply.change_succeeds_iff.1 ⟨done, rfl⟩, rest⟩
  · rintro ⟨e₁, found, rest⟩
    obtain ⟨done, rfl⟩ := (Reply.change_succeeds_iff (e := e)).2 found
    exact ⟨done, rest⟩

/-- Moves that are made one by one are read and played in a row. -/
theorem run_makeMoves_iff {texts : List String} :
    Run Reply.Succeeds e (texts.map fun text => (files, .makeMove text)) e' ↔
      ∃ ms p, texts.mapM Move.ofText = .ok ms ∧ e.position.playAll ms = .ok p ∧
        e' = { e with position := p } := by
  induction texts generalizing e with
  | nil =>
    rw [List.map_nil, run_nil_iff]
    constructor
    · rintro rfl
      exact ⟨[], _, rfl, rfl, rfl⟩
    · rintro ⟨ms, p, read, played, rfl⟩
      obtain rfl := Except.ok.inj read
      obtain rfl := Except.ok.inj played
      rfl
  | cons text texts ih =>
    rw [List.map_cons, run_change_iff rfl]
    simp only [playText_eq_ok_iff, ih, List.mapM_cons]
    constructor
    · rintro ⟨_, ⟨m, q, read, played, rfl⟩, ms, p, readRest, playedRest, rfl⟩
      refine ⟨m :: ms, p, ?_, bind_eq_ok_iff.2 ⟨q, played, playedRest⟩, rfl⟩
      rw [read, readRest]
      rfl
    · rintro ⟨_, p, readAll, playedAll, rfl⟩
      obtain ⟨m, read, h⟩ := bind_eq_ok_iff.1 readAll
      obtain ⟨ms, readRest, h⟩ := bind_eq_ok_iff.1 h
      obtain rfl := Except.ok.inj h
      obtain ⟨q, played, playedRest⟩ := bind_eq_ok_iff.1 playedAll
      exact ⟨_, ⟨m, q, read, played, rfl⟩, ms, p, readRest, playedRest, rfl⟩

/-- The position that is set up before any moves. -/
def setupPosition : List String → Except EngineError Position
  | [] => .error .noPosition
  | ["startpos"] => .ok .start
  | fields => (Position.ofFen (String.intercalate " " fields)).mapError .reading

theorem setupPosition_of_fields {setup : List String} (nonempty : setup = [] → False)
    (other : setup = ["startpos"] → False) :
    setupPosition setup = (Position.ofFen (String.intercalate " " setup)).mapError .reading := by
  unfold setupPosition
  split
  · exact (nonempty rfl).elim
  · exact (other rfl).elim
  · rfl

/-- A position in text is a set-up and, behind the word `moves`, the moves from there. -/
theorem readPosition_eq (words : List String) : readPosition words = (do
    let start ← setupPosition (words.takeWhile (· ≠ "moves"))
    let ms ← (((words.dropWhile (· ≠ "moves")).drop 1).mapM Move.ofText).mapError .reading
    (start.playAll ms).mapError (.failure ∘ .overflow)) := by
  unfold readPosition
  rw [List.span_eq_takeWhile_dropWhile]
  dsimp only
  generalize words.takeWhile (· ≠ "moves") = setup
  split
  · rfl
  · rfl
  · rename_i nonempty other
    rw [setupPosition_of_fields nonempty other]
    rfl

theorem forall_ne_moves {setup : List String} (none : "moves" ∉ setup) :
    ∀ word ∈ setup, decide (word ≠ "moves") = true := by
  intro word mem
  exact decide_eq_true fun same => none (same ▸ mem)

theorem readPosition_eq_setup {setup : List String} (none : "moves" ∉ setup) :
    readPosition setup = setupPosition setup := by
  have first : setup.takeWhile (· ≠ "moves") = setup :=
    List.takeWhile_eq_self_iff.2 (forall_ne_moves none)
  have rest : setup.dropWhile (· ≠ "moves") = [] :=
    List.dropWhile_eq_nil_iff.2 (forall_ne_moves none)
  rw [readPosition_eq, first, rest]
  cases setupPosition setup <;> rfl

/-- A set-up with moves is read if all moves are read, and then played in order. -/
theorem readPosition_append_eq_ok_iff {setup texts : List String} (none : "moves" ∉ setup)
    {p : Position} : readPosition (setup ++ "moves" :: texts) = .ok p ↔
      ∃ start ms, setupPosition setup = .ok start ∧ texts.mapM Move.ofText = .ok ms ∧
        start.playAll ms = .ok p := by
  have first : (setup ++ "moves" :: texts).takeWhile (· ≠ "moves") = setup := by
    rw [List.takeWhile_append_of_pos (forall_ne_moves none),
      List.takeWhile_cons_of_neg (by decide), List.append_nil]
  have rest : (setup ++ "moves" :: texts).dropWhile (· ≠ "moves") = "moves" :: texts := by
    rw [List.dropWhile_append_of_pos (forall_ne_moves none),
      List.dropWhile_cons_of_neg (by decide)]
  rw [readPosition_eq, first, rest, List.drop_one, List.tail_cons]
  simp only [bind_eq_ok_iff, mapError_eq_ok_iff, exists_and_left]

/-- A position that is given with moves is the one that the moves reach one by one, and it can be
given so if and only if the moves can be made one by one. -/
theorem run_position_moves_iff {setup texts : List String} (none : "moves" ∉ setup) :
    Run Reply.Succeeds e [(files, .position (setup ++ "moves" :: texts))] e' ↔
      Run Reply.Succeeds e
        ((files, .position setup) :: texts.map fun text => (files, .makeMove text)) e' := by
  rw [run_change_iff rfl, run_change_iff rfl]
  simp only [position_eq_ok_iff, readPosition_append_eq_ok_iff none, readPosition_eq_setup none,
    run_makeMoves_iff, run_nil_iff]
  constructor
  · rintro ⟨_, ⟨p, ⟨start, ms, found, read, played⟩, rfl⟩, rfl⟩
    exact ⟨_, ⟨start, found, rfl⟩, ms, p, read, played, rfl⟩
  · rintro ⟨_, ⟨start, found, rfl⟩, ms, p, read, played, rfl⟩
    exact ⟨_, ⟨p, ⟨start, ms, found, read, played⟩, rfl⟩, rfl⟩

/-! ## Failures -/

/-- A command fails: it prints nothing, changes nothing, and returns an error. -/
def Fails (e : Engine) (r : Reply) : Prop :=
  ∃ err, r = { engine := e, outcome := .error err } ∧ ∀ o, err ≠ .failure (.overflow o)

theorem Fails.returns {r : Reply} (h : e.Fails r) : r.Returns := by
  obtain ⟨err, rfl, other⟩ := h
  exact fun o same => other o (Except.error.inj same)

theorem Fails.not_succeeds {r : Reply} (h : e.Fails r) : ¬ r.Succeeds := by
  obtain ⟨err, rfl, -⟩ := h
  exact nofun

/-- A set-up fails by what its text says, never by an overflow. -/
theorem setupPosition_ne_overflow {setup : List String} {err : EngineError}
    (h : setupPosition setup = .error err) (o : Overflow) : err ≠ .failure (.overflow o) := by
  rintro rfl
  unfold setupPosition at h
  split at h
  · cases h
  · cases h
  · cases read : Position.ofFen _ <;> rw [read] at h <;> cases h

/-- One malformed move among many is enough. -/
theorem readPosition_of_malformed {words : List String} {text : String}
    (mem : text ∈ (words.dropWhile (· ≠ "moves")).drop 1)
    (malformed : ∀ m, Move.ofText text ≠ .ok m) :
    ∃ err, readPosition words = .error err ∧ ∀ o, err ≠ .failure (.overflow o) := by
  rw [readPosition_eq]
  cases found : setupPosition (words.takeWhile (· ≠ "moves")) with
  | error err => exact ⟨err, rfl, setupPosition_ne_overflow found⟩
  | ok start =>
    cases read : ((words.dropWhile (· ≠ "moves")).drop 1).mapM Move.ofText with
    | error cause => exact ⟨.reading cause, rfl, nofun⟩
    | ok ms =>
      obtain ⟨m, ok⟩ := exists_of_mem_of_mapM read mem
      exact absurd ok (malformed m)

/-- The moves come behind the first word that says so. -/
theorem mem_drop_of_mem {setup texts : List String} {text : String} (mem : text ∈ texts) :
    text ∈ ((setup ++ "moves" :: texts).dropWhile (· ≠ "moves")).drop 1 := by
  induction setup with
  | nil => exact mem
  | cons word setup ih =>
    by_cases first : word = "moves"
    · -- the setup says so itself, and what was meant as moves comes later still
      subst first
      exact List.mem_append_right setup (List.mem_cons_of_mem _ mem)
    · have skipped : decide (word ≠ "moves") = true := decide_eq_true first
      rw [List.cons_append, List.dropWhile_cons, if_pos skipped]
      exact ih

/-- A text that is no move fails the whole command, the moves before it included. -/
theorem fails_of_malformed {setup texts : List String} {text : String} (mem : text ∈ texts)
    (malformed : ∀ m, Move.ofText text ≠ .ok m) :
    e.Fails (e.execute files (.position (setup ++ "moves" :: texts))) := by
  obtain ⟨err, failed, returned⟩ :=
    readPosition_of_malformed (mem_drop_of_mem mem) malformed
  refine ⟨err, ?_, returned⟩
  rw [execute, failed]
  rfl

theorem readGames_ne_overflow {path : String} {err : EngineError}
    (h : readGames files path = .error err) (o : Overflow) : err ≠ .failure (.overflow o) := by
  rintro rfl
  rw [readGames] at h
  cases read : files path with
  | error cause =>
    rw [read] at h
    cases h
  | ok bytes =>
    rw [read] at h
    change (Dataset.ofBytes bytes).mapError EngineError.encoding = _ at h
    cases decoded : Dataset.ofBytes bytes with
    | error cause =>
      rw [decoded] at h
      cases h
    | ok games =>
      rw [decoded] at h
      cases h

/-- Training on a file that cannot be read fails. -/
theorem fails_of_readGames {path : String} {err : EngineError}
    (h : readGames files path = .error err) : e.Fails (e.execute files (.train path)) := by
  refine ⟨err, ?_, readGames_ne_overflow h⟩
  rw [execute, trainReply, h]
  rfl

theorem effective_sublist : (history : List (Files × Command)) → ∀ e : Engine,
    (e.effective history).Sublist history
  | [], _ => .slnil
  | (files, command) :: rest, e => by
    rw [effective]
    split
    · exact (effective_sublist rest _).cons_cons _
    · exact (effective_sublist rest _).cons _

/-- Failures leave no trace. A command that returns an error changes nothing; the position changes
only where a command succeeds that sets it, and the weights only where training does. So a history
leads to the same engine as its effective commands alone, all of which succeed. In particular one
malformed move among many stops a position, and games that cannot be read stop training. Moves
that are given with a position lead where they lead one by one. -/
theorem failures_change_nothing (e : Engine) :
    (∀ files command, (e.execute files command).Returns →
      (¬ (e.execute files command).Succeeds → (e.execute files command).engine = e) ∧
      ((e.execute files command).engine.position ≠ e.position →
        (e.execute files command).Succeeds ∧ command.setsPosition = true) ∧
      ((e.execute files command).engine.weights ≠ e.weights →
        (e.execute files command).Succeeds ∧ command.trains = true)) ∧
    (∀ history e', Run Reply.Returns e history e' →
      (e.effective history).Sublist history ∧ Run Reply.Succeeds e (e.effective history) e' ∧
      (e'.position ≠ e.position → ∃ x ∈ e.effective history, x.2.setsPosition = true) ∧
      (e'.weights ≠ e.weights → ∃ x ∈ e.effective history, x.2.trains = true)) ∧
    (∀ files setup texts text, text ∈ texts → (∀ m, Move.ofText text ≠ .ok m) →
      e.Fails (e.execute files (.position (setup ++ "moves" :: texts)))) ∧
    (∀ files path err, readGames files path = .error err →
      e.Fails (e.execute files (.train path))) ∧
    ∀ files setup texts e', "moves" ∉ setup →
      (Run Reply.Succeeds e [(files, .position (setup ++ "moves" :: texts))] e' ↔
        Run Reply.Succeeds e
          ((files, .position setup) :: texts.map fun text => (files, .makeMove text)) e') :=
  ⟨fun _ _ returns => ⟨engine_execute_of_fails returns, succeeds_of_position_ne,
      succeeds_of_weights_ne returns⟩,
    fun _ _ run => ⟨effective_sublist _ e, run.effective, run.effective.exists_setsPosition,
      run.effective.exists_trains⟩,
    fun _ _ _ _ mem malformed => fails_of_malformed mem malformed,
    fun _ _ _ unread => fails_of_readGames unread,
    fun _ _ _ _ none => run_position_moves_iff none⟩

/-- A mistyped move leaves the start of a game as it was, and so do games that are missing. Without
the mistake the pawn moves, at once or by itself. -/
theorem failures_change_nothing_mistyped :
    let files : Files := fun _ => .error .missing
    let e : Engine := {}
    e.Fails (e.execute files (.position ["startpos", "moves", "e2e4", "e7"])) ∧
      (e.execute files (.position ["startpos", "moves", "e2e4", "e7"])).engine = e ∧
      e.Fails (e.execute files (.train "games")) ∧
      ∃ e', Run Reply.Succeeds e [(files, .position ["startpos"]), (files, .makeMove "e2e4")] e' ∧
        e'.position.toMove = .black := by
  intro files e
  obtain ⟨step, -, malformed, unread, batch⟩ := failures_change_nothing e
  have stopped := malformed files ["startpos"] ["e2e4", "e7"] "e7" (by simp) fun _ => nofun
  refine ⟨stopped, (step _ _ stopped.returns).1 stopped.not_succeeds, unread _ _ _ rfl, ?_⟩
  let m : Move := ⟨⟨.e, .second .white⟩, ⟨.e, ⟨⟨3, by decide⟩⟩⟩, none⟩
  have here : Position.start.piece? m.src = some ⟨.white, .pawn⟩ := by
    rw [Position.start_eq]
    rfl
  obtain ⟨p, played, -, turn⟩ := Position.exists_play here
    (by rw [Position.start_eq]; decide) (by rw [Position.start_eq]; decide)
  have read : readPosition (["startpos"] ++ "moves" :: ["e2e4"]) = .ok p :=
    (readPosition_append_eq_ok_iff (by decide)).2
      ⟨.start, [m], rfl, rfl, bind_eq_ok_iff.2 ⟨p, played, rfl⟩⟩
  have atOnce : Run Reply.Succeeds e [(files, .position (["startpos"] ++ "moves" :: ["e2e4"]))]
      { e with position := p } :=
    (run_change_iff rfl).2 ⟨_, position_eq_ok_iff.2 ⟨p, read, rfl⟩, .nil _⟩
  exact ⟨_, (batch files _ _ _ (by decide)).1 atOnce, turn⟩

end Engine

end ChessMachine
