import LutLogic.Proofs.Equation.Faults
import LutLogic.Proofs.Equation.Reprint

/-!
# Reading with a cursor

Here tokens are read as a machine reads them: a `Cursor` moves over the list of all tokens, the end
of the text included, and a counter is raised where a group or the rest of a chain begins and
lowered where it has ended. Nothing in this bounds how deep the calls go. The cursor stands still at
the end, the counter is lowered only after a success, and a call finds it wherever the calls before
have left it. So `Cursor.chain` gets a number of calls that may be begun within each other, and
stops apart from any fault if these do not suffice, or if a chain is begun above the nesting limit.

`readChain` does the same with the levels that are left as an argument. `Agrees` says that a part
read from a cursor comes to what reading the tokens left at it comes to, and it is carried from one
level to the next (`agrees_operand`, `agrees_deeper`, `agrees_chain`). So the counter is where it
was, no chain is begun above the limit, and the calls suffice that the limit allows for. The bound
on the height of the tree is one of the grammar: an operator adds a level of the tree above both its
operands and is charged for the right one only, but an operand that is no leaf is a group, which is
charged and adds nothing (`Grammar.Chain.height_le`).
-/

namespace LutLogic

/-! ## Height -/

/-- The number of edges from the root of an equation to its deepest leaf. -/
def Equation.height : Equation → Nat
  | constant _ => 0
  | input _ _ => 0
  | binary _ left right => max left.height right.height + 1

namespace Grammar

mutual

/-- An operand is lower than it nests, unless it nests no level and is a leaf. -/
theorem Operand.height_le {ss : List Symbol} {e : Equation} {n : Nat} :
    Operand ss e n → e.height ≤ n - 1
  | .zero => Nat.le_refl 0
  | .one => Nat.le_refl 0
  | .pin _ => Nat.le_refl 0
  | .inverted _ => Nat.le_refl 0
  | .group inner => inner.height_le

/-- A chain is no higher than it nests. -/
theorem Chain.height_le {ss : List Symbol} {e : Equation} {n : Nat} : Chain ss e n → e.height ≤ n
  | .single operand => Nat.le_trans operand.height_le (Nat.sub_le n 1)
  | .operation _ first rest => by
    have hleft := first.height_le
    have hright := rest.height_le
    rw [Equation.height]
    omega

end

/-- An operand has a symbol. -/
theorem Operand.length_pos {ss : List Symbol} {e : Equation} {n : Nat} :
    Operand ss e n → 0 < ss.length
  | .zero => Nat.zero_lt_one
  | .one => Nat.zero_lt_one
  | .pin _ => Nat.zero_lt_one
  | .inverted _ => Nat.zero_lt_two
  | .group _ => Nat.zero_lt_succ _

/-- A chain has a symbol. -/
theorem Chain.length_pos {ss : List Symbol} {e : Equation} {n : Nat} (h : Chain ss e n) :
    0 < ss.length := by
  cases h with
  | single operand => exact operand.length_pos
  | operation op first rest =>
    rw [List.length_append]
    exact Nat.add_pos_left first.length_pos _

end Grammar

/-! ## A cursor and what it does -/

/-- Why reading with a cursor stops without an equation. -/
inductive Halt where
  /-- The tokens are refused. -/
  | fault (f : Fault)
  /-- A chain was begun above the nesting limit. -/
  | tooDeep
  /-- Chains were begun within each other more often than was allowed for. -/
  | unfinished
deriving DecidableEq, Repr

namespace Tokens

/-- The tokens of a text, the last of them its end. -/
def withEnd (ts : Tokens) : List Token := ts.tokens ++ [⟨.finish, ts.stop⟩]

/-- There is one token more than in the text. -/
theorem length_withEnd (ts : Tokens) : ts.withEnd.length = ts.tokens.length + 1 := by
  rw [withEnd, List.length_append, List.length_singleton]

/-- The token at a position, and the last one at every position beyond it. -/
def peek (ts : Tokens) (position : Nat) : Token :=
  have inside : min position (ts.withEnd.length - 1) < ts.withEnd.length := by
    rw [ts.length_withEnd]
    omega
  ts.withEnd.get ⟨min position (ts.withEnd.length - 1), inside⟩

end Tokens

/-- The state of reading tokens one after the other. -/
structure Cursor where
  /-- The number of tokens before the next one. -/
  position : Nat
  /-- The number of levels that were gone down and not up again. -/
  depth : Nat
deriving DecidableEq, Repr

namespace Cursor

open Equation (Reading nextToken readOperand readLevel readDeeper readChain readTokens
  suffix_of_readDeeper suffix_of_readOperand)

/-- A part of reading, which moves the cursor. -/
abbrev Run (α : Type) := StateT Cursor (Except Halt) α

/-- The next token. -/
def next (ts : Tokens) : Run Token := fun c => .ok (ts.peek c.position, c)

/-- Takes the next token. The end of the tokens is never passed. -/
def advance (ts : Tokens) : Run Token := fun c =>
  let t := ts.peek c.position
  .ok (t, if t.symbol = .finish then c else { c with position := c.position + 1 })

/-- Takes the next token if it is the symbol that has to stand there. -/
def expect (ts : Tokens) (wanted : Symbol) : Run Token := fun c =>
  let t := ts.peek c.position
  if t.symbol = wanted then advance ts c
  else .error (.fault ⟨t.offset, .expected wanted t.symbol⟩)

/-- Goes one level down, if this is within the nesting limit. -/
def descend (ts : Tokens) : Run Unit := fun c =>
  let d := { c with depth := c.depth + 1 }
  if maxNesting < d.depth then .error (.fault ⟨(ts.peek d.position).offset, .nestedTooDeeply⟩)
  else .ok ((), d)

/-- Goes one level up. -/
def ascend : Run Unit := fun c => .ok ((), { c with depth := c.depth - 1 })

/-- Watches the beginning of a chain, which must not lie above the nesting limit. -/
def enter : Run Unit := fun c => if maxNesting < c.depth then .error .tooDeep else .ok ((), c)

/-- Reads what lies one level deeper. -/
def deeper (ts : Tokens) (chain : Run Equation) : Run Equation := do
  descend ts
  chain

/-- Reads an operand. What a group encloses is read by `chain`. -/
def operand (ts : Tokens) (chain : Run Equation) : Run Equation := do
  let t ← advance ts
  match t.symbol with
  | .zero => return .constant false
  | .one => return .constant true
  | .pin index => return .plain index
  | .tilde => do
    let u ← advance ts
    match u.symbol with
    | .pin index => return .inverted index
    | s => throw (.fault ⟨u.offset, .expectedInput s⟩)
  | .leftParen => do
    let e ← deeper ts chain
    let _ ← expect ts .rightParen
    ascend
    return e
  | s => throw (.fault ⟨t.offset, .expectedOperand s⟩)

/-- Reads a chain, in which at most `calls` chains are begun within each other, the chain itself
included. -/
def chain (ts : Tokens) : Nat → Run Equation
  | 0 => throw .unfinished
  | calls + 1 => do
    enter
    let left ← operand ts (chain ts calls)
    match (← next ts).symbol with
    | .op op => do
      let _ ← advance ts
      let right ← deeper ts (chain ts calls)
      ascend
      return .binary op left right
    | _ => return left

/-- Reads a whole equation: a chain and then the end of the text. -/
def equation (ts : Tokens) (calls : Nat) : Run Equation := do
  let e ← chain ts calls
  let _ ← expect ts .finish
  return e

/-! ## One step -/

/-- What follows a part that was read goes on from there. -/
theorem run_bind_ok {α β : Type} {x : Run α} {f : α → Run β} {a : α} {c d : Cursor}
    (h : x c = .ok (a, d)) : (x >>= f) c = f a d := by
  change Except.bind (x c) _ = _
  rw [h]
  rfl

/-- Where a part stops, what follows it is not reached. -/
theorem run_bind_error {α β : Type} {x : Run α} {f : α → Run β} {stop : Halt} {c : Cursor}
    (h : x c = .error stop) : (x >>= f) c = .error stop := by
  change Except.bind (x c) _ = _
  rw [h]
  rfl

/-- The next token is the first one of those that are left, or the end. -/
theorem peek_eq (ts : Tokens) (position : Nat) :
    ts.peek position = nextToken ts.stop (ts.tokens.drop position) := by
  have hget : ts.withEnd[min position ts.tokens.length]? =
      some (nextToken ts.stop (ts.tokens.drop position)) := by
    unfold Tokens.withEnd
    rcases Nat.lt_or_ge position ts.tokens.length with h | h
    · rw [Nat.min_eq_left (Nat.le_of_lt h), List.getElem?_append_left h,
        List.getElem?_eq_getElem h, List.drop_eq_getElem_cons h]
      rfl
    · rw [Nat.min_eq_right h, List.getElem?_append_right (Nat.le_refl _), Nat.sub_self,
        List.drop_eq_nil_of_le h]
      rfl
  obtain ⟨hlt, hget⟩ := List.getElem?_eq_some_iff.mp hget
  have hlast : ts.withEnd.length - 1 = ts.tokens.length := by
    rw [ts.length_withEnd, Nat.add_sub_cancel]
  unfold Tokens.peek
  simp only [hlast, List.get_eq_getElem]
  exact hget

/-- The tokens that are left at a cursor. -/
def left (ts : Tokens) (c : Cursor) : List Token := ts.tokens.drop c.position

/-- The cursor before the tokens `us`, which end the text, at a depth. -/
def before (ts : Tokens) (us : List Token) (depth : Nat) : Cursor :=
  ⟨ts.tokens.length - us.length, depth⟩

/-- Before tokens that end the text these tokens are left. -/
theorem left_before {ts : Tokens} {us : List Token} (h : us <:+ ts.tokens) (depth : Nat) :
    left ts (before ts us depth) = us :=
  (List.suffix_iff_eq_drop.mp h).symm

/-- A token is taken, and the cursor stands before those after it. The end is not taken. -/
theorem advance_eq {ts : Tokens} {c : Cursor} {us : List Token} (hleft : left ts c = us) :
    advance ts c = .ok (nextToken ts.stop us,
      if (nextToken ts.stop us).symbol = .finish then c else before ts us.tail c.depth) := by
  have hpeek : ts.peek c.position = nextToken ts.stop us := by rw [peek_eq, ← hleft, left]
  simp only [advance, hpeek]
  split
  · rfl
  · next hsymbol =>
    cases us with
    | nil => exact absurd rfl hsymbol
    | cons t us =>
      have hlength : ts.tokens.length - c.position = us.length + 1 := by
        rw [← List.length_drop, ← List.length_cons, ← hleft, left]
      have hposition : c.position + 1 = ts.tokens.length - us.length := by omega
      rw [hposition]
      rfl

/-- A token that is not the end is taken. -/
theorem advance_cons {ts : Tokens} {c : Cursor} {t : Token} {us : List Token}
    (hleft : left ts c = t :: us) (ht : t.symbol ≠ .finish) :
    advance ts c = .ok (t, before ts us c.depth) := by
  rw [advance_eq hleft]
  exact congrArg (fun d => Except.ok (t, d)) (if_neg ht)

/-- The next token is seen. -/
theorem next_eq {ts : Tokens} {c : Cursor} {us : List Token} (hleft : left ts c = us) :
    next ts c = .ok (nextToken ts.stop us, c) := by
  rw [next, peek_eq, ← hleft, left]

/-- The symbol that has to stand there is taken as any token is. -/
theorem expect_of_eq {ts : Tokens} {c : Cursor} {us : List Token} {wanted : Symbol}
    (hleft : left ts c = us) (h : (nextToken ts.stop us).symbol = wanted) :
    expect ts wanted c = advance ts c := by
  refine if_pos ?_
  rw [peek_eq, ← h, ← hleft, left]

/-- Any other token than the one that has to stand there is a fault. -/
theorem expect_of_ne {ts : Tokens} {c : Cursor} {us : List Token} {wanted : Symbol}
    (hleft : left ts c = us) (h : (nextToken ts.stop us).symbol ≠ wanted) :
    expect ts wanted c = .error (.fault ⟨(nextToken ts.stop us).offset,
      .expected wanted (nextToken ts.stop us).symbol⟩) := by
  have hpeek : ts.peek c.position = nextToken ts.stop us := by rw [peek_eq, ← hleft, left]
  rw [← hpeek] at h ⊢
  exact if_neg h

/-! ## Agreement with reading -/

/-- What reading a part comes to at a depth: the equation, with the cursor before the tokens that
are left, or the fault. -/
def outcome (ts : Tokens) (depth : Nat) : Reading → Except Halt (Equation × Cursor)
  | .ok (e, rest) => .ok (e, before ts rest depth)
  | .error f => .error (.fault f)

/-- Where `n` levels are left, `run` comes to what `reading` makes of the tokens that are left, with
the cursor `lower` levels below its depth. -/
def Agrees (ts : Tokens) (n lower : Nat) (run : Run Equation) (reading : List Token → Reading) :
    Prop :=
  ∀ c : Cursor, c.depth + n = maxNesting →
    run c = outcome ts (c.depth + lower) (reading (left ts c))

/-- Operands are read alike if this is so one level deeper. -/
theorem agrees_operand {ts : Tokens} {n : Nat} {inner : Run Equation}
    (hdeeper : Agrees ts n 1 (deeper ts inner) (readDeeper ts.stop n)) :
    Agrees ts n 0 (operand ts inner) (readOperand ts.stop (readDeeper ts.stop n)) := by
  intro c hc
  rw [Nat.add_zero, operand, run_bind_ok (advance_eq rfl)]
  cases hleft : left ts c with
  | nil => rfl
  | cons t us =>
    have hus : us <:+ ts.tokens := by
      refine (List.suffix_cons t us).trans ?_
      rw [← hleft]
      exact List.drop_suffix _ _
    have hat : left ts (before ts us c.depth) = us := left_before hus c.depth
    cases ht : t.symbol with
    | tilde =>
      simp only [nextToken, ht, readOperand, List.tail_cons]
      rw [if_neg (by decide), run_bind_ok (advance_eq hat)]
      cases us with
      | nil => rfl
      | cons u vs =>
        cases hu : u.symbol <;> simp only [nextToken, hu, List.tail_cons] <;> rfl
    | leftParen =>
      simp only [nextToken, ht, readOperand, List.tail_cons]
      rw [if_neg (by decide)]
      have hinner := hdeeper (before ts us c.depth) hc
      rw [hat] at hinner
      cases hread : readDeeper ts.stop n us with
      | error f =>
        rw [hread] at hinner
        exact run_bind_error hinner
      | ok part =>
        obtain ⟨e, rest⟩ := part
        rw [hread] at hinner
        have hrest : rest <:+ ts.tokens := (suffix_of_readDeeper us e rest hread).trans hus
        rw [run_bind_ok hinner]
        -- The group has to be closed by the next token.
        have hafter : left ts (before ts rest (c.depth + 1)) = rest := left_before hrest _
        cases rest with
        | nil =>
          have hnot : (nextToken ts.stop []).symbol ≠ .rightParen := by
            intro h
            cases h
          exact run_bind_error (expect_of_ne hafter hnot)
        | cons u vs =>
          dsimp only
          by_cases hu : u.symbol = .rightParen
          · have hnot : u.symbol ≠ .finish := by
              rw [hu]
              decide
            rw [if_pos hu]
            exact run_bind_ok ((expect_of_eq hafter hu).trans (advance_cons hafter hnot))
          · rw [if_neg hu]
            exact run_bind_error (expect_of_ne hafter hu)
    | _ =>
      simp only [nextToken, ht, readOperand]
      rfl

/-- What lies one level deeper is read alike if there is such a level, and is refused if not. -/
theorem agrees_deeper {ts : Tokens} {n : Nat} {inner : Run Equation}
    (hinner : ∀ m < n, Agrees ts m 0 inner (readChain ts.stop m)) :
    Agrees ts n 1 (deeper ts inner) (readDeeper ts.stop n) := by
  intro c hc
  cases n with
  | zero =>
    -- The cursor is at the limit.
    have hlimit : maxNesting < c.depth + 1 := by omega
    have hdescend : descend ts c =
        .error (.fault ⟨(nextToken ts.stop (left ts c)).offset, .nestedTooDeeply⟩) := by
      simp only [descend, if_pos hlimit, peek_eq, left]
    exact run_bind_error hdescend
  | succ n =>
    have hlimit : ¬maxNesting < c.depth + 1 := by omega
    have hdescend : descend ts c = .ok ((), ⟨c.position, c.depth + 1⟩) := by
      simp only [descend, if_neg hlimit]
    have hlevel : c.depth + 1 + n = maxNesting := by omega
    rw [deeper, run_bind_ok hdescend]
    exact hinner n (Nat.lt_succ_self n) ⟨c.position, c.depth + 1⟩ hlevel

/-- A chain is read alike as far as `n` levels down, if so many chains may be begun within it. -/
theorem agrees_chain (ts : Tokens) {n calls : Nat} (hcalls : n < calls) :
    Agrees ts n 0 (chain ts calls) (readChain ts.stop n) := by
  induction calls generalizing n with
  | zero => exact absurd hcalls (Nat.not_lt_zero n)
  | succ calls ih =>
    have hdeeper : Agrees ts n 1 (deeper ts (chain ts calls)) (readDeeper ts.stop n) :=
      agrees_deeper fun m hm => ih (by omega)
    intro c hc
    have henter : enter c = .ok ((), c) := if_neg (by omega)
    have hoperand : operand ts (chain ts calls) c =
        outcome ts c.depth (readOperand ts.stop (readDeeper ts.stop n) (left ts c)) :=
      agrees_operand hdeeper c hc
    rw [Nat.add_zero, chain, run_bind_ok henter, Equation.readChain_eq, readLevel]
    cases hread : readOperand ts.stop (readDeeper ts.stop n) (left ts c) with
    | error f =>
      rw [hread] at hoperand
      exact run_bind_error hoperand
    | ok part =>
      obtain ⟨e, rest⟩ := part
      rw [hread] at hoperand
      have hrest : rest <:+ ts.tokens :=
        (suffix_of_readOperand suffix_of_readDeeper hread).trans (List.drop_suffix _ _)
      have hafter : left ts (before ts rest c.depth) = rest := left_before hrest c.depth
      rw [run_bind_ok hoperand, run_bind_ok (next_eq hafter)]
      cases rest with
      | nil => rfl
      | cons u us =>
        simp only [nextToken]
        cases hu : u.symbol with
        | op op =>
          have hnot : u.symbol ≠ .finish := by
            rw [hu]
            intro h
            cases h
          have hat : left ts (before ts us c.depth) = us :=
            left_before ((List.suffix_cons u us).trans hrest) c.depth
          -- The rest of the chain lies one level deeper, from where the cursor comes up again.
          have hright : deeper ts (chain ts calls) (before ts us c.depth) =
              outcome ts (c.depth + 1) (readDeeper ts.stop n us) := by
            have h := hdeeper (before ts us c.depth) hc
            rwa [hat] at h
          dsimp only
          rw [run_bind_ok (advance_cons hafter hnot)]
          cases hr : readDeeper ts.stop n us with
          | error f =>
            rw [hr] at hright
            exact run_bind_error hright
          | ok part =>
            obtain ⟨right, vs⟩ := part
            rw [hr] at hright
            exact run_bind_ok hright
        | _ => rfl

/-- A whole text is read alike, if the end stands nowhere but at its end. -/
theorem equation_eq {ts : Tokens} (hfinish : ∀ t ∈ ts.tokens, t.symbol ≠ .finish) {calls : Nat}
    (hcalls : maxNesting < calls) :
    equation ts calls ⟨0, 0⟩ = outcome ts 0 ((readTokens ts).map fun e => (e, [])) := by
  have hchain : chain ts calls ⟨0, 0⟩ =
      outcome ts 0 (readChain ts.stop maxNesting ts.tokens) :=
    agrees_chain ts hcalls ⟨0, 0⟩ (Nat.zero_add _)
  unfold equation readTokens
  cases hread : readChain ts.stop maxNesting ts.tokens with
  | error f =>
    rw [hread] at hchain
    exact run_bind_error hchain
  | ok part =>
    obtain ⟨e, rest⟩ := part
    rw [hread] at hchain
    obtain ⟨used, m, htokens, -⟩ := Equation.readChain_sound hread
    have hrest : rest <:+ ts.tokens := ⟨used, htokens.symm⟩
    have hafter : left ts (before ts rest 0) = rest := left_before hrest 0
    rw [run_bind_ok hchain]
    cases rest with
    | nil => exact run_bind_ok ((expect_of_eq hafter rfl).trans (advance_eq hafter))
    | cons u us =>
      have hu : u.symbol ≠ .finish := hfinish u (hrest.subset List.mem_cons_self)
      exact run_bind_error (expect_of_ne hafter hu)

/-- Reads the equation that characters stand for. -/
def read (text : List Char) (calls : Nat) : Except Halt Equation :=
  match Tokens.scan text with
  | .error f => .error (.fault f)
  | .ok ts => (equation ts calls ⟨0, 0⟩).map Prod.fst

/-- A text is read alike, and with no other end than an equation or a fault. -/
theorem read_eq {text : List Char} {calls : Nat} (hcalls : maxNesting < calls) :
    read text calls = (Equation.read text).mapError .fault := by
  unfold read Equation.read
  cases hscan : Tokens.scan text with
  | error f => rfl
  | ok ts =>
    obtain ⟨us, hus, rfl⟩ := map_eq_ok_iff.mp hscan
    have hfinish : ∀ t ∈ us, t.symbol ≠ .finish := by
      intro t ht hend
      have hwritten := Tokens.written_of_scanFrom hus t ht
      rw [hend] at hwritten
      exact hwritten
    dsimp only
    rw [equation_eq hfinish hcalls]
    cases readTokens ⟨us, Text.byteCount text⟩ <;> rfl

/-! ## Levels -/

/-- Reading a part from a cursor has ended with an equation and the cursor behind it. -/
structure IsReturn (ts : Tokens) (c d : Cursor) (e : Equation) : Prop where
  /-- The counter of levels is where it was. -/
  depth_eq : d.depth = c.depth
  /-- The cursor has moved on. -/
  position_lt : c.position < d.position
  /-- The cursor stands at a token, if only at the end. -/
  position_lt_length : d.position < ts.withEnd.length
  /-- The tree is no higher than the levels that were left. -/
  height_le : e.height ≤ 256 - c.depth

/-- The ends that reading a part from a cursor has. -/
inductive Ends (ts : Tokens) (c : Cursor) : Except Halt (Equation × Cursor) → Prop where
  /-- The tokens are refused. -/
  | refused (f : Fault) : Ends ts c (.error (.fault f))
  /-- An equation was read. -/
  | returned {e : Equation} {d : Cursor} (h : IsReturn ts c d e) : Ends ts c (.ok (e, d))

/-- What is read from tokens of which some are used, within the levels that are left, is returned.
-/
theorem ends_outcome {ts : Tokens} {c : Cursor} {reading : Reading}
    (h : ∀ e rest, reading = .ok (e, rest) → ∃ used, left ts c = used ++ rest ∧ 0 < used.length ∧
      e.height ≤ 256 - c.depth) : Ends ts c (outcome ts c.depth reading) := by
  cases reading with
  | error f => exact .refused f
  | ok part =>
    obtain ⟨e, rest⟩ := part
    obtain ⟨used, hsplit, hused, hheight⟩ := h e rest rfl
    have hlength : ts.tokens.length - c.position = used.length + rest.length := by
      rw [← List.length_append, ← hsplit, left, List.length_drop]
    refine .returned ⟨rfl, ?_, ?_, hheight⟩
    · dsimp only [before]
      omega
    · rw [ts.length_withEnd]
      dsimp only [before]
      omega

/-- A chain that is read within `n` levels uses tokens and is no higher than these levels. -/
theorem exists_used_of_readChain {stop n : Nat} {ts rest : List Token} {e : Equation}
    (h : readChain stop n ts = .ok (e, rest)) :
    ∃ used, ts = used ++ rest ∧ 0 < used.length ∧ e.height ≤ n := by
  obtain ⟨used, m, hsplit, hm, hchain⟩ := Equation.readChain_sound h
  have hpos := hchain.length_pos
  rw [List.length_map] at hpos
  exact ⟨used, hsplit, hpos, Nat.le_trans hchain.height_le hm⟩

/-- An operand that is read within `n` levels uses tokens and is no higher than these levels. -/
theorem exists_used_of_readOperand {stop n : Nat} {ts rest : List Token} {e : Equation}
    (h : readOperand stop (readDeeper stop n) ts = .ok (e, rest)) :
    ∃ used, ts = used ++ rest ∧ 0 < used.length ∧ e.height ≤ n := by
  obtain ⟨used, m, hsplit, hm, hoperand⟩ :=
    Equation.readOperand_sound (Equation.deeperSound stop n) h
  have hpos := hoperand.length_pos
  have hheight := hoperand.height_le
  rw [List.length_map] at hpos
  exact ⟨used, hsplit, hpos, by omega⟩

/-- From any position at a depth within the limit, reading a chain and reading an operand end if as
many chains may be begun within each other as there are levels left: with a fault or with an
equation, never for a chain begun above the limit, and always as reading the tokens that are left
does within these levels. With an equation the counter is where it was, the cursor has moved on and
is not beyond the end, and the tree is no higher than the levels that were left. So a whole text is
read from a cursor as it is read, and no equation of a text is higher than 256. -/
theorem ends_of_depth_le (ts : Tokens) (c : Cursor) (hc : c.depth ≤ 256) :
    (∀ calls, 256 < c.depth + calls → Ends ts c (chain ts calls c) ∧
        chain ts calls c =
          outcome ts c.depth (readChain ts.stop (256 - c.depth) (left ts c))) ∧
      (∀ calls, 256 ≤ c.depth + calls → Ends ts c (operand ts (chain ts calls) c) ∧
        operand ts (chain ts calls) c = outcome ts c.depth
          (readOperand ts.stop (readDeeper ts.stop (256 - c.depth)) (left ts c))) ∧
      (∀ text calls, 256 < calls → read text calls = (Equation.read text).mapError .fault) ∧
      ∀ text e, Equation.ofText text = .ok e → e.height ≤ 256 := by
  have hlevels : c.depth + (256 - c.depth) = maxNesting := Nat.add_sub_cancel' hc
  refine ⟨fun calls hcalls => ?_, fun calls hcalls => ?_, fun text calls hcalls => read_eq hcalls,
    fun text e he => ?_⟩
  · have hbegun : 256 - c.depth < calls := by omega
    have hchain := agrees_chain ts hbegun c hlevels
    refine ⟨?_, hchain⟩
    rw [hchain]
    exact ends_outcome fun e rest h => exists_used_of_readChain h
  · have hdeeper : Agrees ts (256 - c.depth) 1 (deeper ts (chain ts calls))
        (readDeeper ts.stop (256 - c.depth)) :=
      agrees_deeper fun m hm => agrees_chain ts (by omega)
    have hoperand := agrees_operand hdeeper c hlevels
    refine ⟨?_, hoperand⟩
    rw [hoperand]
    exact ends_outcome fun e rest h => exists_used_of_readOperand h
  · obtain ⟨ts, stop, n, -, hchain, hn⟩ := (Equation.ofText_eq_ok_iff text e).mp he
    exact Nat.le_trans hchain.height_le hn

/-- The tokens of `A1*(A2+1)`. -/
def groupTokens : Tokens where
  tokens := [⟨.pin 1, 0⟩, ⟨.op .and, 2⟩, ⟨.leftParen, 3⟩, ⟨.pin 2, 4⟩, ⟨.op .or, 6⟩, ⟨.one, 7⟩,
    ⟨.rightParen, 8⟩]
  stop := 9

/-- In `A1*(A2+1)` the chain in the group is read at depth 255 as a tree of height 1, with the
cursor before the closing parenthesis and the counter at 255 again. At the limit its first operand
is read and the rest of the chain refused, and the text has an equation no higher than 256. -/
theorem ends_of_depth_le_group :
    (∃ d, chain groupTokens 2 ⟨3, 255⟩ = .ok (.or (.plain 2) (.constant true), d) ∧
        d.depth = 255 ∧ 3 < d.position ∧ d.position < 8 ∧
        (Equation.or (.plain 2) (.constant true)).height ≤ 1) ∧
      (∃ d, operand groupTokens (chain groupTokens 0) ⟨3, 256⟩ = .ok (.plain 2, d) ∧
        d.depth = 256 ∧ 3 < d.position) ∧
      chain groupTokens 1 ⟨3, 256⟩ = .error (.fault ⟨7, .nestedTooDeeply⟩) ∧
      (Equation.and (.plain 1) (.or (.plain 2) (.constant true))).height ≤ 256 := by
  obtain ⟨hinside, -, -, hheight⟩ := ends_of_depth_le groupTokens ⟨3, 255⟩ (by decide)
  obtain ⟨hlimit, hfirst, -⟩ := ends_of_depth_le groupTokens ⟨3, 256⟩ (by decide)
  refine ⟨?_, ?_, (hlimit 1 (by decide)).2, hheight "A1*(A2+1)" _ rfl⟩
  · have hrun : chain groupTokens 2 ⟨3, 255⟩ =
        .ok (.or (.plain 2) (.constant true), ⟨6, 255⟩) := rfl
    have hends := (hinside 2 (by decide)).1
    rw [hrun] at hends
    cases hends with
    | returned h => exact ⟨_, hrun, h.depth_eq, h.position_lt, h.position_lt_length, h.height_le⟩
  · have hrun : operand groupTokens (chain groupTokens 0) ⟨3, 256⟩ =
        .ok (.plain 2, ⟨4, 256⟩) := rfl
    have hends := (hfirst 0 (by decide)).1
    rw [hrun] at hends
    cases hends with
    | returned h => exact ⟨_, hrun, h.depth_eq, h.position_lt⟩

end Cursor

end LutLogic
