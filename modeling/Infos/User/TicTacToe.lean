import Mathlib.Data.List.Nodup
import Mathlib.Tactic.SplitIfs

/-!
# Tic-tac-toe

The game between the characters that `getch` delivers. It waits for one in `inputRow`, in
`inputColumn` or behind the question for another round.
-/
namespace Infos.User.TicTacToe

def empty : UInt8 := ' '.toUInt8

/-- The constants of the program, which it says can be changed. -/
structure Config where
  boardDim : Nat
  playerMarks : List UInt8

def config : Config := { boardDim := 3, playerMarks := ['X'.toUInt8, 'O'.toUInt8] }

/-- Rows and columns from 0 on. -/
abbrev Board := Nat → Nat → UInt8

def reset : Board := fun _ _ => empty

def Board.put (b : Board) (row col : Nat) (mark : UInt8) : Board :=
  fun i j => if i = row ∧ j = col then mark else b i j

section Functions
variable (c : Config) (b : Board)

/-- The loops return false at the first cell that is not empty. -/
def full : Bool :=
  (List.range c.boardDim).all fun i => (List.range c.boardDim).all fun j => !(b i j != empty)

inductive SetResult where
  | outside
  | occupied
  | done (b : Board)

def set (row col mark : UInt8) : SetResult :=
  let rowIndex : Int := row.toNat - 'a'.toNat
  let colIndex : Int := col.toNat - '0'.toNat
  if rowIndex < 0 ∨ rowIndex ≥ c.boardDim ∨ colIndex < 0 ∨ colIndex ≥ c.boardDim then .outside
  else if b rowIndex.toNat colIndex.toNat != empty then .occupied
  else .done (b.put rowIndex.toNat colIndex.toNat mark)

def markOf (player : Nat) : UInt8 := c.playerMarks.getD (player - 1) 0

/-- A loop over a line stops at the first cell with another mark. -/
def won (player : Nat) : Bool :=
  let mark := markOf c player
  let line (cell : Nat → UInt8) := (List.range c.boardDim).all fun i => cell i == mark
  if (List.range c.boardDim).any fun row => line fun col => b row col then true
  else if (List.range c.boardDim).any fun col => line fun row => b row col then true
  else if line fun i => b i i then true
  else line fun row => b row (c.boardDim - 1 - row)

def nextPlayer (currentPlayer : Nat) : Nat :=
  if currentPlayer < c.playerMarks.length then currentPlayer + 1 else 1

/-! ### What is printed -/

inductive Output where
  | game (b : Board)
  | prompt (player : Nat)
  | echo (ch : UInt8)
  | newline
  | notValid
  | notPossible
  | hasWon (player : Nat)
  | draw
  | playAgain

def charText (ch : UInt8) : String := String.singleton (Char.ofUInt8 ch)

def repeatText (n : Nat) (text : Nat → String) : String := String.join ((List.range n).map text)

def boardHeader : String :=
  "\n  " ++ repeatText c.boardDim (fun col => "   " ++ toString (col + 1)) ++ "\n   +" ++
    repeatText c.boardDim (fun _ => "---+") ++ "\n"

def boardRow (rowIndex : Nat) : String :=
  charText ('a'.toUInt8 + rowIndex.toUInt8) ++ "  |" ++
    repeatText c.boardDim (fun col => " " ++ charText (b rowIndex col) ++ " |") ++ "\n   +" ++
    repeatText c.boardDim (fun _ => "---+") ++ "\n"

def Output.text : Output → String
  | .game b => boardHeader c ++ repeatText c.boardDim (boardRow c b) ++ "\n"
  | .prompt player => "Player " ++ toString player ++ ", select move (e.g. a2)> "
  | .echo ch => charText ch
  | .newline => "\n"
  | .notValid => "That is not a valid move!\n"
  | .notPossible => "That move is not possible!\n"
  | .hasWon player => "Player " ++ toString player ++ " has won!\n"
  | .draw => "It's a draw!\n"
  | .playAgain => "Play again? (y/n)> "

/-! ### The game -/

/-- A row of 0 is what `inputRow` returns for a NUL. -/
inductive Waiting where
  | row
  | column (row : UInt8)
  | again
  | finished

structure Game where
  board : Board
  currentPlayer : Nat
  waiting : Waiting

def start : Game × List Output :=
  ({ board := reset, currentPlayer := 1, waiting := .row }, [.game reset, .prompt 1])

/-- The body of `while (playing)` behind a move. -/
def afterMove (player : Nat) : Game × List Output :=
  if won c b player then
    ({ board := b, currentPlayer := player, waiting := .again },
      [.newline, .game b, .hasWon player, .playAgain])
  else if full c b then
    ({ board := b, currentPlayer := player, waiting := .again },
      [.newline, .game b, .draw, .playAgain])
  else
    ({ board := b, currentPlayer := nextPlayer c player, waiting := .row },
      [.newline, .game b, .prompt (nextPlayer c player)])

/-- The end of `selectMove`, with a row and a column. -/
def tryMove (player : Nat) (row col : UInt8) : Game × List Output :=
  match set c b row (col - 1) (markOf c player) with
  | .outside =>
      ({ board := b, currentPlayer := player, waiting := .row },
        [.newline, .notValid, .prompt player])
  | .occupied =>
      ({ board := b, currentPlayer := player, waiting := .row },
        [.newline, .notPossible, .prompt player])
  | .done b => afterMove c b player

/-- A character where the game waits for one. -/
def press (g : Game) (ch : UInt8) : Game × List Output :=
  match g.waiting with
  | .row =>
      if ch = 0 then ({ g with waiting := .column 0 }, [])
      else if 'a'.toUInt8 ≤ ch ∧ ch ≤ 'z'.toUInt8 then
        ({ g with waiting := .column ch }, [.echo ch])
      else (g, [])
  | .column row =>
      if ch = 0 then ({ g with waiting := .row }, [])
      else if '1'.toUInt8 ≤ ch ∧ ch ≤ '9'.toUInt8 then
        if row = 0 then ({ g with waiting := .row }, [.echo ch])
        else
          let (g, out) := tryMove c g.board g.currentPlayer row ch
          (g, .echo ch :: out)
      else if ch = 8 then ({ g with waiting := .row }, [.echo ch])
      else (g, [])
  | .again =>
      if ch = 'y'.toUInt8 then
        ({ g with board := reset, waiting := .row }, [.echo ch, .newline, .prompt g.currentPlayer])
      else ({ g with waiting := .finished }, [.echo ch, .newline])
  | .finished => (g, [])

def runFrom (g : Game) : List UInt8 → Game × List Output
  | [] => (g, [])
  | ch :: keys =>
      let (g, out) := press c g ch
      let (g, rest) := runFrom g keys
      (g, out ++ rest)

/-- `main` without the help text. -/
def main (keys : List UInt8) : Game × List Output :=
  let (g, out) := start
  let (g, rest) := runFrom c g keys
  (g, out ++ rest)

end Functions

/-! ### What a round is -/

/-- The marks of a line of cells. -/
def HasLine (c : Config) (b : Board) (mark : UInt8) : Prop :=
  (∃ row < c.boardDim, ∀ col < c.boardDim, b row col = mark) ∨
    (∃ col < c.boardDim, ∀ row < c.boardDim, b row col = mark) ∨
    (∀ i < c.boardDim, b i i = mark) ∨
    ∀ row < c.boardDim, b row (c.boardDim - 1 - row) = mark

structure Move where
  player : Nat
  row : Nat
  col : Nat

/-- The player whose turn it is after `k` moves. -/
def turn (c : Config) (first k : Nat) : Nat := (first - 1 + k) % c.playerMarks.length + 1

/-- Moves in turn to cells of the board that are free, the last one first. -/
inductive Played (c : Config) (first : Nat) : List Move → Prop
  | nil : Played c first []
  | cons {m : Move} {ms : List Move} : Played c first ms → m.player = turn c first ms.length →
      m.row < c.boardDim → m.col < c.boardDim →
      (∀ m' ∈ ms, ¬ (m'.row = m.row ∧ m'.col = m.col)) → Played c first (m :: ms)

def boardOf (c : Config) : List Move → Board
  | [] => reset
  | m :: ms => (boardOf c ms).put m.row m.col (markOf c m.player)

structure Config.Valid (c : Config) : Prop where
  cells : 0 < c.boardDim
  players : 0 < c.playerMarks.length
  nodup : c.playerMarks.Nodup
  marks : empty ∉ c.playerMarks

def IsPlayer (c : Config) (player : Nat) : Prop := 1 ≤ player ∧ player ≤ c.playerMarks.length

/-- A round in which nobody has a line yet. -/
structure Open (c : Config) (first : Nat) (ms : List Move) : Prop where
  starts : IsPlayer c first
  played : Played c first ms
  lines : ∀ player, IsPlayer c player → ¬ HasLine c (boardOf c ms) (markOf c player)

/-- A game that is fair so far: the board is one of moves in turn, nobody has a line while a move is
awaited, and otherwise the last move made one. -/
def Fair (c : Config) (g : Game) : Prop :=
  ∃ first ms, Open c first ms ∧
    match g.waiting with
    | .row | .column _ => g.board = boardOf c ms ∧ g.currentPlayer = turn c first ms.length
    | .again | .finished => ∃ m, Played c first (m :: ms) ∧ g.board = boardOf c (m :: ms) ∧
        g.currentPlayer = m.player ∧ HasLine c g.board (markOf c m.player)

section Rules
variable {c : Config} {b : Board} {row col player first : Nat} {ms : List Move}

theorem won_iff : won c b player = true ↔ HasLine c b (markOf c player) := by
  simp only [won, HasLine]
  split_ifs with rows cols diagonal
  · simp only [List.any_eq_true, List.all_eq_true, List.mem_range, beq_iff_eq] at rows
    exact iff_of_true rfl (.inl rows)
  · simp only [List.any_eq_true, List.all_eq_true, List.mem_range, beq_iff_eq] at cols
    exact iff_of_true rfl (.inr (.inl cols))
  · simp only [List.all_eq_true, List.mem_range, beq_iff_eq] at diagonal
    exact iff_of_true rfl (.inr (.inr (.inl diagonal)))
  · simp only [List.any_eq_true, List.all_eq_true, List.mem_range, beq_iff_eq] at *
    exact ⟨fun line => .inr (.inr (.inr line)), fun line =>
      ((line.resolve_left rows).resolve_left cols).resolve_left diagonal⟩

theorem markOf_eq (inside : player - 1 < c.playerMarks.length) :
    markOf c player = c.playerMarks[player - 1] := by
  rw [markOf, List.getD_eq_getElem?_getD, List.getElem?_eq_getElem inside, Option.getD_some]

theorem IsPlayer.mark_mem (h : IsPlayer c player) : markOf c player ∈ c.playerMarks := by
  obtain ⟨low, high⟩ := h
  have inside : player - 1 < c.playerMarks.length := by omega
  rw [markOf_eq inside]
  exact List.getElem_mem inside

theorem mark_ne_empty (valid : c.Valid) (h : IsPlayer c player) : markOf c player ≠ empty :=
  fun same => valid.marks (same ▸ h.mark_mem)

theorem mark_inj (valid : c.Valid) {other : Nat} (h : IsPlayer c player) (h' : IsPlayer c other)
    (same : markOf c player = markOf c other) : player = other := by
  obtain ⟨low, high⟩ := h
  obtain ⟨low', high'⟩ := h'
  have inside : player - 1 < c.playerMarks.length := by omega
  have inside' : other - 1 < c.playerMarks.length := by omega
  rw [markOf_eq inside, markOf_eq inside'] at same
  have := valid.nodup.getElem_inj_iff.mp same
  omega

theorem turn_isPlayer (valid : c.Valid) (first k : Nat) : IsPlayer c (turn c first k) :=
  ⟨Nat.succ_pos _, Nat.mod_lt _ valid.players⟩

theorem turn_zero (h : IsPlayer c first) : turn c first 0 = first := by
  obtain ⟨low, high⟩ := h
  rw [turn, Nat.add_zero, Nat.mod_eq_of_lt (by omega)]
  omega

theorem nextPlayer_turn (valid : c.Valid) (first k : Nat) :
    nextPlayer c (turn c first k) = turn c first (k + 1) := by
  have below := Nat.mod_lt (first - 1 + k) valid.players
  rw [nextPlayer, turn, turn, ← Nat.add_assoc]
  generalize first - 1 + k = k at below
  have next : (k + 1) % c.playerMarks.length =
      (k % c.playerMarks.length + 1) % c.playerMarks.length := by
    rw [Nat.mod_add_mod]
  rw [next]
  by_cases last : k % c.playerMarks.length + 1 < c.playerMarks.length
  · rw [if_pos last, Nat.mod_eq_of_lt last]
  · have whole : k % c.playerMarks.length + 1 = c.playerMarks.length := by omega
    rw [if_neg last, whole, Nat.mod_self]

theorem Played.isPlayer (valid : c.Valid) (h : Played c first ms) {m : Move} (there : m ∈ ms) :
    IsPlayer c m.player := by
  induction h with
  | nil => cases there
  | cons _ turn _ _ _ ih =>
      obtain rfl | there := List.mem_cons.mp there
      · exact turn ▸ turn_isPlayer valid first _
      · exact ih there

theorem boardOf_empty_iff (valid : c.Valid) (h : Played c first ms) :
    boardOf c ms row col = empty ↔ ∀ m ∈ ms, ¬ (m.row = row ∧ m.col = col) := by
  induction h with
  | nil => exact iff_of_true rfl fun _ there => nomatch there
  | @cons m ms played player _ _ _ ih =>
      rw [boardOf, Board.put]
      have mark := mark_ne_empty valid (player ▸ turn_isPlayer valid first ms.length)
      split_ifs with here
      · refine iff_of_false mark fun free => ?_
        exact free m List.mem_cons_self ⟨here.1.symm, here.2.symm⟩
      · rw [ih]
        refine ⟨fun free m' there => ?_, fun free m' there => free m' (List.mem_cons_of_mem _ there)⟩
        obtain rfl | there := List.mem_cons.mp there
        · exact fun same => here ⟨same.1.symm, same.2.symm⟩
        · exact free m' there

theorem hasLine_put {mark mark' : UInt8} (apart : mark' ≠ mark)
    (h : HasLine c (b.put row col mark) mark') : HasLine c b mark' := by
  have cell : ∀ i j, b.put row col mark i j = mark' → b i j = mark' := by
    intro i j same
    rw [Board.put] at same
    split_ifs at same with here
    · exact absurd same.symm apart
    · exact same
  obtain ⟨i, inside, line⟩ | ⟨j, inside, line⟩ | line | line := h
  · exact .inl ⟨i, inside, fun j lt => cell i j (line j lt)⟩
  · exact .inr (.inl ⟨j, inside, fun i lt => cell i j (line i lt)⟩)
  · exact .inr (.inr (.inl fun i lt => cell i i (line i lt)))
  · exact .inr (.inr (.inr fun i lt => cell i _ (line i lt)))

theorem not_hasLine_reset (valid : c.Valid) (h : IsPlayer c player) :
    ¬ HasLine c reset (markOf c player) := by
  have mark := mark_ne_empty valid h
  have first := valid.cells
  rintro (⟨i, _, line⟩ | ⟨j, _, line⟩ | line | line)
  · exact mark (line 0 first).symm
  · exact mark (line 0 first).symm
  · exact mark (line 0 first).symm
  · exact mark (line 0 first).symm

theorem Open.start (valid : c.Valid) (h : IsPlayer c first) : Open c first [] :=
  ⟨h, .nil, fun _ player => not_hasLine_reset valid player⟩

/-! ### A move -/

theorem set_done {mark row col : UInt8} {b' : Board} (done : set c b row col mark = .done b') :
    ∃ i j, i < c.boardDim ∧ j < c.boardDim ∧ b i j = empty ∧ b' = b.put i j mark := by
  simp only [set] at done
  split_ifs at done with outside occupied
  · cases done
    refine ⟨_, _, ?_, ?_, ?_, rfl⟩
    · omega
    · omega
    · simpa using occupied

/-- After a move somebody has a line, namely the player who made it, or the round goes on. -/
theorem Open.move (valid : c.Valid) (h : Open c first ms) {i j : Nat} (hi : i < c.boardDim)
    (hj : j < c.boardDim) (free : boardOf c ms i j = empty) :
    let m : Move := { player := turn c first ms.length, row := i, col := j }
    Played c first (m :: ms) ∧
      (HasLine c (boardOf c (m :: ms)) (markOf c m.player) ∨ Open c first (m :: ms)) := by
  intro m
  have played : Played c first (m :: ms) :=
    .cons h.played rfl hi hj ((boardOf_empty_iff valid h.played).mp free)
  refine ⟨played, ?_⟩
  by_cases line : HasLine c (boardOf c (m :: ms)) (markOf c m.player)
  · exact .inl line
  · refine .inr ⟨h.starts, played, fun player isPlayer line' => ?_⟩
    by_cases same : player = m.player
    · exact line (same ▸ line')
    · have apart : markOf c player ≠ markOf c m.player := fun e =>
        same (mark_inj valid isPlayer (turn_isPlayer valid first ms.length) e)
      exact h.lines player isPlayer (hasLine_put apart line')

/-- `full` only sees a board without any mark. -/
theorem full_put_false {mark : UInt8} (hi : row < c.boardDim) (hj : col < c.boardDim)
    (marked : mark ≠ empty) : full c (b.put row col mark) = false := by
  rw [full, List.all_eq_false]
  refine ⟨row, List.mem_range.mpr hi, ?_⟩
  rw [List.all_eq_true]
  intro all
  have cell := all col (List.mem_range.mpr hj)
  rw [Board.put, if_pos ⟨rfl, rfl⟩] at cell
  simp at cell
  exact marked cell

end Rules

/-! ### Games -/

/-- What a step prints about the end of a round. -/
structure Announced (c : Config) (g' : Game) (out : List Output) (moved : Prop) : Prop where
  draw : .draw ∉ out
  hasWon : ∀ player, .hasWon player ∈ out ↔
    moved ∧ g'.waiting = .again ∧ g'.currentPlayer = player

section Games
variable {c : Config} {g : Game} {first : Nat} {ms : List Move}

theorem afterMove_fair (valid : c.Valid) (h : Open c first ms) {i j : Nat} (hi : i < c.boardDim)
    (hj : j < c.boardDim) (free : boardOf c ms i j = empty) :
    let player := turn c first ms.length
    let r := afterMove c ((boardOf c ms).put i j (markOf c player)) player
    Fair c r.1 ∧ Announced c r.1 r.2 True := by
  intro player r
  obtain ⟨played, line | open'⟩ := h.move valid hi hj free
  · have won := won_iff.mpr line
    have result : r = ({ board := _, currentPlayer := player, waiting := .again },
        [.newline, .game _, .hasWon player, .playAgain]) := if_pos won
    rw [result]
    refine ⟨⟨first, ms, h, _, played, rfl, rfl, line⟩, ⟨by simp, fun p => ?_⟩⟩
    simp [eq_comm]
  · have notWon : ¬ won c ((boardOf c ms).put i j (markOf c player)) player = true := fun won =>
      open'.lines player (turn_isPlayer valid first ms.length) (won_iff.mp won)
    have notFull := full_put_false (b := boardOf c ms) hi hj
      (mark_ne_empty valid (turn_isPlayer valid first ms.length))
    have result : r = ({ board := _, currentPlayer := nextPlayer c player, waiting := .row },
        [.newline, .game _, .prompt (nextPlayer c player)]) :=
      (if_neg notWon).trans (if_neg (by rw [notFull]; exact Bool.false_ne_true))
    rw [result]
    refine ⟨⟨first, _, open', rfl, nextPlayer_turn valid first ms.length⟩, ⟨by simp, fun p => ?_⟩⟩
    simp

theorem tryMove_fair (valid : c.Valid) (h : Open c first ms) (row col : UInt8) :
    let r := tryMove c (boardOf c ms) (turn c first ms.length) row col
    Fair c r.1 ∧ Announced c r.1 r.2 True := by
  intro r
  have same : r = tryMove c (boardOf c ms) (turn c first ms.length) row col := rfl
  rw [tryMove] at same
  split at same
  next =>
    rw [same]
    exact ⟨⟨first, ms, h, rfl, rfl⟩, ⟨by simp, by simp⟩⟩
  next =>
    rw [same]
    exact ⟨⟨first, ms, h, rfl, rfl⟩, ⟨by simp, by simp⟩⟩
  next b' done =>
    obtain ⟨i, j, hi, hj, free, rfl⟩ := set_done done
    rw [same]
    exact afterMove_fair valid h hi hj free

theorem press_fair (valid : c.Valid) (h : Fair c g) (ch : UInt8) :
    Fair c (press c g ch).1 ∧
      Announced c (press c g ch).1 (press c g ch).2 (∃ row, g.waiting = .column row) := by
  obtain ⟨board, player, waiting⟩ := g
  obtain ⟨first, ms, open', state⟩ := h
  cases waiting with
  | row =>
      obtain ⟨rfl, rfl⟩ := state
      rw [press]
      dsimp only
      split_ifs
      all_goals exact ⟨⟨first, ms, open', rfl, rfl⟩, ⟨by simp, by simp⟩⟩
  | column row =>
      obtain ⟨rfl, rfl⟩ := state
      have moved : ∃ row', Waiting.column row = .column row' := ⟨row, rfl⟩
      rw [press]
      dsimp only
      split_ifs with nul digit noRow
      · exact ⟨⟨first, ms, open', rfl, rfl⟩, ⟨by simp, by simp⟩⟩
      · exact ⟨⟨first, ms, open', rfl, rfl⟩, ⟨by simp, by simp⟩⟩
      · obtain ⟨fair, announced⟩ := tryMove_fair valid open' row ch
        refine ⟨fair, ⟨?_, fun p => ?_⟩⟩
        · rw [List.mem_cons, not_or]
          exact ⟨nofun, announced.draw⟩
        · rw [List.mem_cons, or_iff_right nofun, announced.hasWon p]
          exact and_congr_left fun _ => iff_of_true trivial moved
      · exact ⟨⟨first, ms, open', rfl, rfl⟩, ⟨by simp, by simp⟩⟩
      · exact ⟨⟨first, ms, open', rfl, rfl⟩, ⟨by simp, by simp⟩⟩
  | again =>
      obtain ⟨m, played, board, mover, line⟩ := state
      rw [press]
      dsimp only
      split_ifs
      · have mover : player = m.player := mover
        have isPlayer : IsPlayer c player := mover ▸ played.isPlayer valid List.mem_cons_self
        refine ⟨⟨player, [], .start valid isPlayer, rfl, (turn_zero isPlayer).symm⟩, ?_⟩
        exact ⟨by simp, by simp⟩
      · exact ⟨⟨first, ms, open', m, played, board, mover, line⟩, ⟨by simp, by simp⟩⟩
  | finished =>
      exact ⟨⟨first, ms, open', state⟩, ⟨by simp [press], by simp [press]⟩⟩

theorem runFrom_fair (valid : c.Valid) (h : Fair c g) (keys : List UInt8) :
    Fair c (runFrom c g keys).1 ∧ .draw ∉ (runFrom c g keys).2 := by
  induction keys generalizing g with
  | nil => exact ⟨h, List.not_mem_nil⟩
  | cons ch keys ih =>
      obtain ⟨fair, announced⟩ := press_fair valid h ch
      obtain ⟨fair', noDraw⟩ := ih fair
      refine ⟨fair', ?_⟩
      rw [runFrom, List.mem_append, not_or]
      exact ⟨announced.draw, noDraw⟩

/-- Whatever is typed, the board is one of moves in turn to free cells, the game asks for a move as
long as nobody has a line, a win is announced with the move that completes one, and a draw never. -/
theorem main_fair (valid : c.Valid) (keys : List UInt8) :
    Fair c (main c keys).1 ∧ .draw ∉ (main c keys).2 ∧ ∀ ch player,
      .hasWon player ∈ (press c (main c keys).1 ch).2 ↔
        (∃ row, (main c keys).1.waiting = .column row) ∧
          (press c (main c keys).1 ch).1.waiting = .again ∧
          (press c (main c keys).1 ch).1.currentPlayer = player := by
  have isPlayer : IsPlayer c 1 := ⟨Nat.le_refl 1, valid.players⟩
  have begun : Fair c start.1 := ⟨1, [], .start valid isPlayer, rfl, (turn_zero isPlayer).symm⟩
  obtain ⟨fair, noDraw⟩ := runFrom_fair valid begun keys
  refine ⟨fair, ?_, fun ch player => (press_fair valid fair ch).2.hasWon player⟩
  rw [main, start, List.mem_append, not_or]
  exact ⟨by simp, noDraw⟩

theorem config_valid : config.Valid := ⟨by decide, by decide, by decide, by decide⟩

def keysOf (text : String) : List UInt8 := text.toList.map Char.toUInt8

/-- The first player takes the first column. -/
theorem main_fair_column :
    .draw ∉ (main config (keysOf "a1a2b1b2c")).2 ∧
      .hasWon 1 ∈ (press config (main config (keysOf "a1a2b1b2c")).1 '1'.toUInt8).2 := by
  obtain ⟨_, noDraw, announced⟩ := main_fair config_valid (keysOf "a1a2b1b2c")
  exact ⟨noDraw, (announced '1'.toUInt8 1).mpr ⟨⟨'c'.toUInt8, rfl⟩, rfl, rfl⟩⟩

/-- The program waits for a move. -/
def Asked (g : Game) : Prop := g.waiting = .row ∨ ∃ row, g.waiting = .column row

/-- Every cell is taken. -/
def Filled (c : Config) (b : Board) : Prop := ∀ i < c.boardDim, ∀ j < c.boardDim, b i j ≠ empty

theorem press_filled (filled : Filled c g.board) (asked : Asked g) (ch : UInt8) :
    (press c g ch).1.board = g.board ∧ (press c g ch).1.currentPlayer = g.currentPlayer ∧
      Asked (press c g ch).1 ∧ ∀ player, .hasWon player ∉ (press c g ch).2 := by
  obtain ⟨board, player, waiting⟩ := g
  have tried : ∀ row col, ∃ o, o ≠ .newline ∧ (∀ p, o ≠ .hasWon p) ∧
      tryMove c board player row col =
        ({ board := board, currentPlayer := player, waiting := .row },
          [.newline, o, .prompt player]) := by
    intro row col
    rw [tryMove]
    split
    next => exact ⟨.notValid, nofun, nofun, rfl⟩
    next => exact ⟨.notPossible, nofun, nofun, rfl⟩
    next b' done =>
      obtain ⟨i, j, hi, hj, free, _⟩ := set_done done
      exact absurd free (filled i hi j hj)
  obtain rfl | ⟨row, rfl⟩ := asked
  · rw [press]
    dsimp only
    split_ifs
    all_goals simp [Asked]
  · rw [press]
    dsimp only
    obtain ⟨o, _, silent, result⟩ := tried row ch
    rw [result]
    split_ifs
    all_goals simp [Asked, eq_comm, silent]

/-- On a board that is filled without a line every move is refused, whatever is typed: the game goes
on for ever. -/
theorem filled_stuck (filled : Filled c g.board) (asked : Asked g) (keys : List UInt8) :
    (runFrom c g keys).1.board = g.board ∧
      (runFrom c g keys).1.currentPlayer = g.currentPlayer ∧ Asked (runFrom c g keys).1 ∧
      ∀ player, .hasWon player ∉ (runFrom c g keys).2 := by
  induction keys generalizing g with
  | nil => exact ⟨rfl, rfl, asked, fun _ => List.not_mem_nil⟩
  | cons ch keys ih =>
      obtain ⟨board, player, asked', silent⟩ := press_filled filled asked ch
      obtain ⟨board', player', asked'', silent'⟩ := ih (board.symm ▸ filled) asked'
      refine ⟨board'.trans board, player'.trans player, asked'', fun p => ?_⟩
      rw [runFrom, List.mem_append, not_or]
      exact ⟨silent p, silent' p⟩

/-- A drawn round, and two more moves. -/
theorem filled_stuck_drawn :
    (runFrom config (main config (keysOf "a1a2a3b2b1b3c2c1c3")).1 (keysOf "a1c3")).1.board =
      (main config (keysOf "a1a2a3b2b1b3c2c1c3")).1.board :=
  (filled_stuck (by unfold Filled; decide) (.inl rfl) (keysOf "a1c3")).1

end Games
end Infos.User.TicTacToe
