import LutLogic.Proofs.Equation.Layout

/-!
# Where reading stops

Symbols are viable if the symbols of some equation, the end of its text included, start with them.
`isLeast_of_refused` says that an equation text is refused at the first token with which its symbols
are no longer viable, unless it is refused for its nesting.

Two facts make this up, and they need different means. That the symbols before the fault can be
completed is seen from the reader: wherever it stops, an operand, a pin or a closing parenthesis
repairs the part that it is in, and each part around it can then be closed as it would have been
(`BreaksOff`, carried through one level by `breaksOff_of_readOperand` and `breaksOff_of_readLevel`).
The completion nests no deeper than what was read, so it stays within the nesting limit. That
nothing follows the fault is a matter of the grammar alone: what may come next depends on what was
read only through the kind of place and the number of open groups. `Need` is this memory, every
equation drives it to its end (`Chain.run`), and at the fault it has no next state.
-/

namespace LutLogic

namespace Grammar

/-- The symbols of an equation and the end of its text start with these symbols. -/
def Viable (ss : List Symbol) : Prop :=
  ∃ sentence e n, Chain sentence e n ∧ ss <+: sentence ++ [.finish]

/-- What an equation needs next, with the number of groups that are open. -/
inductive Need where
  /-- An operand. -/
  | operand (groups : Nat)
  /-- A pin, after an inversion mark. -/
  | pin (groups : Nat)
  /-- An operator, or the end of a group, or of the text if no group is open. -/
  | operator (groups : Nat)
  /-- Nothing, after the end of the text. -/
  | nothing

/-- What is needed after a symbol, if the symbol can come next. -/
def Need.after : Need → Symbol → Option Need
  | operand groups, .zero => some (operator groups)
  | operand groups, .one => some (operator groups)
  | operand groups, .pin _ => some (operator groups)
  | operand groups, .tilde => some (pin groups)
  | operand groups, .leftParen => some (operand (groups + 1))
  | pin groups, .pin _ => some (operator groups)
  | operator groups, .op _ => some (operand groups)
  | operator (groups + 1), .rightParen => some (operator groups)
  | operator 0, .finish => some nothing
  | _, _ => none

/-- What is needed after symbols, if they can come one after the other. -/
def Need.run (x : Need) : List Symbol → Option Need
  | [] => some x
  | s :: ss => (x.after s).bind fun y => y.run ss

/-- Symbols in two parts come one after the other if the second part can come after the first. -/
theorem Need.run_append (x : Need) (ss us : List Symbol) :
    x.run (ss ++ us) = (x.run ss).bind fun y => y.run us := by
  induction ss generalizing x with
  | nil => rfl
  | cons s ss ih =>
    rw [List.cons_append, run, run, Option.bind_assoc]
    exact congrArg _ (funext fun y => ih y)

/-- After an inversion mark nothing but a pin can come next. -/
theorem Need.after_pin {groups : Nat} {s : Symbol} (h : ∀ index, s ≠ .pin index) :
    (pin groups).after s = none := by
  cases s with
  | pin index => exact absurd rfl (h index)
  | _ => rfl

/-- In a group nothing but an operator and the end of the group can come after an operand. -/
theorem Need.after_operator {groups : Nat} {s : Symbol} (hparen : s ≠ .rightParen)
    (hop : ∀ op, s ≠ .op op) : (operator (groups + 1)).after s = none := by
  cases s with
  | rightParen => exact absurd rfl hparen
  | op op => exact absurd rfl (hop op)
  | _ => rfl

/-- Outside groups nothing but an operator and the end of the text can come after an operand. -/
theorem Need.after_operator_zero {s : Symbol} (hfinish : s ≠ .finish) (hop : ∀ op, s ≠ .op op) :
    (operator 0).after s = none := by
  cases s with
  | finish => exact absurd rfl hfinish
  | op op => exact absurd rfl (hop op)
  | _ => rfl

mutual

/-- After an operand an operator is needed, or the end of what the operand stands in. -/
theorem Operand.run (groups : Nat) {ss : List Symbol} {e : Equation} {n : Nat} :
    Operand ss e n → (Need.operand groups).run ss = some (.operator groups)
  | .zero => rfl
  | .one => rfl
  | .pin _ => rfl
  | .inverted _ => rfl
  | .group inner => by
    have hinner := inner.run (groups + 1)
    change (Need.operand (groups + 1)).run (_ ++ [.rightParen]) = _
    rw [Need.run_append, hinner]
    rfl

/-- After a chain an operator is needed, or the end of what the chain stands in. -/
theorem Chain.run (groups : Nat) {ss : List Symbol} {e : Equation} {n : Nat} :
    Chain ss e n → (Need.operand groups).run ss = some (.operator groups)
  | .single operand => operand.run groups
  | .operation op first rest => by
    have hfirst := first.run groups
    have hrest := rest.run groups
    rw [Need.run_append, hfirst]
    exact hrest

end

/-- Symbols that are viable can come one after the other. -/
theorem Viable.run_ne_none {ss : List Symbol} (h : Viable ss) : (Need.operand 0).run ss ≠ none := by
  obtain ⟨sentence, e, n, hchain, rest, hrest⟩ := h
  have hend : (Need.operand 0).run (sentence ++ [.finish]) = some .nothing := by
    rw [Need.run_append, hchain.run 0]
    rfl
  intro hnone
  rw [← hrest, Need.run_append, hnone] at hend
  cases hend

/-- What a chain starts with is viable. -/
theorem Chain.viable {ss more : List Symbol} {e : Equation} {n : Nat} (h : Chain (ss ++ more) e n) :
    Viable ss :=
  ⟨ss ++ more, e, n, h, ⟨more ++ [.finish], by rw [List.append_assoc]⟩⟩

/-- What starts viable symbols is viable. -/
theorem Viable.of_prefix {ss us : List Symbol} (h : Viable us) (hss : ss <+: us) :
    Viable ss := by
  obtain ⟨sentence, e, n, hchain, hus⟩ := h
  exact ⟨sentence, e, n, hchain, hss.trans hus⟩

/-- Symbols are an operand that nests at most `n` levels. -/
def OperandWithin (n : Nat) (ss : List Symbol) : Prop := ∃ e m, Operand ss e m ∧ m ≤ n

/-- Symbols are a chain that nests at most `n` levels. -/
def ChainWithin (n : Nat) (ss : List Symbol) : Prop := ∃ e m, Chain ss e m ∧ m ≤ n

/-- Symbols are a chain that, one level deeper, nests at most `n` levels. -/
def DeeperWithin (n : Nat) (ss : List Symbol) : Prop := ∃ e m, Chain ss e m ∧ m + 1 ≤ n

end Grammar

namespace Equation

open Grammar

/-- Tokens break off at an offset where `groups` groups are open: up to some token, which has this
offset, they can be completed to a `Part`, and this token itself cannot come next. -/
def BreaksOff (Part : List Symbol → Prop) (stop groups : Nat) (ts : List Token) (offset : Nat) :
    Prop :=
  ∃ used rest more, ts = used ++ rest ∧ (nextToken stop rest).offset = offset ∧
    (Need.operand groups).run (used.map Token.symbol ++ [(nextToken stop rest).symbol]) = none ∧
    (∀ s ∈ more, s.Written) ∧ Part (used.map Token.symbol ++ more)

/-- Wherever what lies deeper is refused, and not for its nesting, its tokens break off there. -/
def DeeperBreaksOff (stop n : Nat) : Prop :=
  ∀ ts f, readDeeper stop n ts = .error f → f.cause ≠ .nestedTooDeeply →
    ∀ groups, BreaksOff (DeeperWithin n) stop groups ts f.offset

/-! ## Parts that break off -/

variable {n stop groups offset : Nat}

/-- Where the chain in a group breaks off, so does the group, and it is completed with a closing
parenthesis more. -/
theorem BreaksOff.group {t : Token} {ts : List Token} (ht : t.symbol = .leftParen)
    (h : BreaksOff (DeeperWithin n) stop (groups + 1) ts offset) :
    BreaksOff (OperandWithin n) stop groups (t :: ts) offset := by
  obtain ⟨used, rest, more, rfl, hoffset, hnone, hmore, e, m, hchain, hm⟩ := h
  refine ⟨t :: used, rest, more ++ [.rightParen], rfl, hoffset, ?_, ?_, e, m + 1, ?_, hm⟩
  · rw [List.map_cons, ht]
    exact hnone
  · refine List.forall_mem_append.mpr ⟨hmore, ?_⟩
    exact List.forall_mem_singleton.mpr trivial
  · have hgroup := Operand.group hchain
    rwa [List.map_cons, ht, List.cons_append, ← List.append_assoc]

/-- Where the first operand breaks off, so does the chain. -/
theorem BreaksOff.single {ts : List Token} (h : BreaksOff (OperandWithin n) stop groups ts offset) :
    BreaksOff (ChainWithin n) stop groups ts offset := by
  obtain ⟨used, rest, more, hts, hoffset, hnone, hmore, e, m, hoperand, hm⟩ := h
  exact ⟨used, rest, more, hts, hoffset, hnone, hmore, e, m, .single hoperand, hm⟩

/-- Where the rest of a chain breaks off after an operator, so does the chain. -/
theorem BreaksOff.operation {ls us : List Token} {u : Token} {op : BinaryOp} {left : Equation}
    {k : Nat} (hl : Operand (ls.map Token.symbol) left k) (hk : k ≤ n) (hu : u.symbol = .op op)
    (h : BreaksOff (DeeperWithin n) stop groups us offset) :
    BreaksOff (ChainWithin n) stop groups (ls ++ u :: us) offset := by
  obtain ⟨used, rest, more, rfl, hoffset, hnone, hmore, e, m, hchain, hm⟩ := h
  have hused : (ls ++ u :: used).map Token.symbol =
      ls.map Token.symbol ++ .op op :: used.map Token.symbol := by
    rw [List.map_append, List.map_cons, hu]
  refine ⟨ls ++ u :: used, rest, more, by simp, hoffset, ?_, hmore, binary op left e,
    max k (m + 1), ?_, Nat.max_le.mpr ⟨hk, hm⟩⟩
  · have hfirst := hl.run groups
    rw [hused, List.append_assoc, Need.run_append, hfirst]
    exact hnone
  · have hoperation := Chain.operation op hl hchain
    rwa [hused, List.append_assoc]

/-! ## What is refused breaks off -/

/-- After a chain that was accepted there is no operator, if this is so deeper. -/
theorem not_op_of_readLevel {deeper : List Token → Reading} {ts us : List Token} {u : Token}
    {e : Equation} {op : BinaryOp}
    (hdeeper : ∀ ts e, deeper ts = .ok (e, u :: us) → u.symbol ≠ .op op)
    (h : readLevel stop deeper ts = .ok (e, u :: us)) : u.symbol ≠ .op op := by
  unfold readLevel at h
  split at h
  · cases h
  · cases h
  · next left v vs hl =>
    split at h
    · split at h
      · cases h
      · next right ws hr =>
        cases h
        exact hdeeper _ _ hr
    · next hnot =>
      cases h
      exact hnot op

/-- After a chain that was accepted one level deeper there is no operator. -/
theorem not_op_of_readDeeper {ts us : List Token} {e : Equation}
    (h : readDeeper stop n ts = .ok (e, us)) (op : BinaryOp) :
    (nextToken stop us).symbol ≠ .op op := by
  cases us with
  | nil => nofun
  | cons u us =>
    induction n generalizing ts e with
    | zero => cases h
    | succ n ih =>
      have hlevel : readLevel stop (readDeeper stop n) ts = .ok (e, u :: us) :=
        readChain_eq stop n ▸ h
      exact not_op_of_readLevel (fun _ _ hd => ih hd) hlevel

/-- Where an operand is refused, and not for its nesting, its tokens break off, if this is so
deeper. -/
theorem breaksOff_of_readOperand (hdeeper : DeeperBreaksOff stop n) {ts : List Token} {f : Fault}
    (h : readOperand stop (readDeeper stop n) ts = .error f) (hf : f.cause ≠ .nestedTooDeeply)
    (groups : Nat) : BreaksOff (OperandWithin n) stop groups ts f.offset := by
  obtain ⟨hoffset, hnot⟩ | ⟨t, us, rfl, ht, hoffset, hnot⟩ | ⟨t, us, rfl, ht, hgroup⟩ :=
    readOperand_eq_error h
  · -- An operand that is missing can be a zero.
    refine ⟨[], ts, [.zero], rfl, hoffset.symm, ?_, ?_, _, 0, .zero, Nat.zero_le n⟩
    · obtain hs | hs | ⟨op, hs⟩ := hnot <;> rw [hs] <;> rfl
    · exact List.forall_mem_singleton.mpr trivial
  · -- A pin that is missing after an inversion mark can be the first one.
    refine ⟨[t], us, [.pin 1], rfl, hoffset.symm, ?_, ?_, inverted 1, 0, ?_, Nat.zero_le n⟩
    · rw [List.map_singleton, ht]
      change (Need.pin groups).run [(nextToken stop us).symbol] = none
      rw [Need.run, Need.after_pin hnot]
      rfl
    · exact List.forall_mem_singleton.mpr (by decide)
    · rw [List.map_singleton, ht]
      exact .inverted 1
  · obtain hd | ⟨e, vs, hd, hoffset, hnot⟩ := hgroup
    · exact (hdeeper us f hd hf (groups + 1)).group ht
    · -- A group that is not closed can be closed.
      obtain ⟨used, m, rfl, hm, hchain⟩ := deeperSound stop n us e vs hd
      have hused : (t :: used).map Token.symbol = .leftParen :: used.map Token.symbol := by
        rw [List.map_cons, ht]
      refine ⟨t :: used, vs, [.rightParen], rfl, hoffset.symm, ?_, ?_, e, m + 1, ?_, hm⟩
      · have hinner := hchain.run (groups + 1)
        rw [hused, List.cons_append]
        change (Need.operand (groups + 1)).run (_ ++ [(nextToken stop vs).symbol]) = none
        rw [Need.run_append, hinner, Option.bind_some, Need.run,
          Need.after_operator hnot (not_op_of_readDeeper hd)]
        rfl
      · exact List.forall_mem_singleton.mpr trivial
      · rw [hused]
        exact .group hchain

/-- Where a chain is refused, and not for its nesting, its tokens break off, if this is so
deeper. -/
theorem breaksOff_of_readLevel (hdeeper : DeeperBreaksOff stop n) {ts : List Token} {f : Fault}
    (h : readLevel stop (readDeeper stop n) ts = .error f) (hf : f.cause ≠ .nestedTooDeeply)
    (groups : Nat) : BreaksOff (ChainWithin n) stop groups ts f.offset := by
  obtain hl | ⟨left, op, u, us, hl, hu, hr⟩ := readLevel_eq_error h
  · exact (breaksOff_of_readOperand hdeeper hl hf groups).single
  · obtain ⟨ls, k, rfl, hk, hoperand⟩ := readOperand_sound (deeperSound stop n) hl
    exact (hdeeper us f hr hf groups).operation hoperand hk hu

/-- At every level what is refused deeper, and not for its nesting, breaks off. -/
theorem deeperBreaksOff (stop n : Nat) : DeeperBreaksOff stop n := by
  induction n with
  | zero =>
    intro ts f h hf
    cases h
    exact absurd rfl hf
  | succ n ih =>
    intro ts f h hf groups
    have hlevel : readLevel stop (readDeeper stop n) ts = .error f := readChain_eq stop n ▸ h
    obtain ⟨used, rest, more, hts, hoffset, hnone, hmore, e, m, hchain, hm⟩ :=
      breaksOff_of_readLevel ih hlevel hf groups
    exact ⟨used, rest, more, hts, hoffset, hnone, hmore, e, m, hchain, Nat.succ_le_succ hm⟩

/-- Where the tokens of a whole text are refused, and not for their nesting, they break off with no
group open. -/
theorem breaksOff_of_readTokens {ts : Tokens} {f : Fault}
    (hwritten : ∀ t ∈ ts.tokens, t.symbol.Written) (h : readTokens ts = .error f)
    (hf : f.cause ≠ .nestedTooDeeply) :
    BreaksOff (ChainWithin maxNesting) ts.stop 0 ts.tokens f.offset := by
  unfold readTokens at h
  split at h
  · next g hg =>
    cases h
    rw [readChain_eq] at hg
    exact breaksOff_of_readLevel (deeperBreaksOff ts.stop maxNesting) hg hf 0
  · cases h
  · next e u us hread =>
    -- A chain that is followed by something is a whole equation before it.
    cases h
    obtain ⟨used, m, hts, hm, hchain⟩ := readChain_sound hread
    have hfinish : u.symbol ≠ .finish := by
      have hu := hwritten u (by rw [hts]; simp)
      intro hs
      rw [hs] at hu
      exact hu
    have hlevels : readDeeper ts.stop (maxNesting + 1) ts.tokens = .ok (e, u :: us) := hread
    have hop : ∀ op, u.symbol ≠ .op op := not_op_of_readDeeper hlevels
    refine ⟨used, u :: us, [], hts, rfl, ?_, nofun, e, m, ?_, hm⟩
    · have hused := hchain.run 0
      change (Need.operand 0).run (_ ++ [u.symbol]) = none
      rw [Need.run_append, hused, Option.bind_some, Need.run, Need.after_operator_zero hfinish hop]
      rfl
    · rwa [List.append_nil]

/-! ## Texts -/

/-- The tokens of a text up to any of them are those of a layout that ends where the next token
starts. -/
theorem exists_layout_before (l : Layout) {used rest : List Token} {pos stop : Nat}
    (hstop : stop = pos + Text.byteCount l.chars)
    (h : Layout.tokensFrom pos l.lexemes = used ++ rest) :
    ∃ (before : Layout) (cs : List Char), l.chars = before.chars ++ cs ∧
      Layout.tokensFrom pos before.lexemes = used ∧
      (nextToken stop rest).offset = pos + Text.byteCount before.chars := by
  obtain ⟨lexemes, tail, htail⟩ := l
  induction lexemes generalizing pos used with
  | nil =>
    obtain ⟨rfl, rfl⟩ := List.append_eq_nil_iff.mp h.symm
    exact ⟨⟨[], tail, htail⟩, [], (List.append_nil _).symm, rfl, hstop⟩
  | cons x xs ih =>
    cases used with
    | nil =>
      -- The next token is the first one, and it starts after its blanks.
      rw [List.nil_append] at h
      refine ⟨⟨[], x.blanks, x.blank⟩, x.spelling ++ Layout.chars ⟨xs, tail, htail⟩, ?_, rfl, ?_⟩
      · rw [Layout.chars_cons, Lexeme.chars, List.append_assoc]
        rfl
      · rw [← h]
        rfl
    | cons t used =>
      obtain ⟨ht, hrest⟩ := List.cons.inj h
      have hpos : stop =
          pos + Text.byteCount x.chars + Text.byteCount (Layout.chars ⟨xs, tail, htail⟩) := by
        rw [hstop, Layout.chars_cons, Text.byteCount_append]
        omega
      obtain ⟨⟨ys, end', hend⟩, cs, hchars, hused, hoffset⟩ := ih hpos hrest
      refine ⟨⟨x :: ys, end', hend⟩, cs, ?_, ?_, ?_⟩
      · rw [Layout.chars_cons, Layout.chars_cons, List.append_assoc, hchars]
      · rw [Layout.tokensFrom, ht, hused]
      · rw [hoffset, Layout.chars_cons, Text.byteCount_append]
        omega

/-- If the symbols of a layout can be completed to a chain within the nesting limit, the text of the
layout can be completed to that of an equation. -/
theorem exists_read_append (l : Layout) {more : List Symbol} (hmore : ∀ s ∈ more, s.Written)
    (h : ChainWithin maxNesting ((Layout.tokensFrom 0 l.lexemes).map Token.symbol ++ more)) :
    ∃ d, read (l.chars ++ more.flatMap Symbol.chars) = .ok d := by
  obtain ⟨d, n, hchain, hn⟩ := h
  obtain ⟨ts, hts, hsymbols⟩ := Tokens.exists_scanFrom hmore (0 + Text.byteCount l.chars)
  have hscan : Tokens.scan (l.chars ++ more.flatMap Symbol.chars) =
      .ok ⟨Layout.tokensFrom 0 l.lexemes ++ ts,
        Text.byteCount (l.chars ++ more.flatMap Symbol.chars)⟩ := by
    rw [Tokens.scan, Tokens.scanFrom_layout, hts]
    rfl
  refine ⟨d, read_eq_ok_iff.mpr ⟨_, hscan, readTokens_eq_ok_iff.mpr ⟨n, ?_, hn⟩⟩⟩
  rwa [List.map_append, hsymbols]

/-- Where the tokens of a layout break off, its text up to there can be completed to that of an
equation. -/
theorem BreaksOff.exists_completion {l : Layout}
    (h : BreaksOff (ChainWithin maxNesting) (Text.byteCount l.chars) 0
      (Layout.tokensFrom 0 l.lexemes) offset) :
    ∃ before cs more d, l.chars = before ++ cs ∧ Text.byteCount before = offset ∧
      read (before ++ more) = .ok d := by
  obtain ⟨used, rest, more, hts, hoffset, -, hmore, hpart⟩ := h
  have hstop : Text.byteCount l.chars = 0 + Text.byteCount l.chars := (Nat.zero_add _).symm
  obtain ⟨before, cs, hchars, hused, hnext⟩ := exists_layout_before l hstop hts
  rw [← hused] at hpart
  obtain ⟨d, hd⟩ := exists_read_append before hmore hpart
  exact ⟨before.chars, cs, _, d, hchars, by omega, hd⟩

/-- Where tokens break off stands the first token with which they, and the end after them, are no
longer viable. -/
theorem BreaksOff.isLeast {ts full : List Token} (hfull : full = ts ++ [⟨.finish, stop⟩])
    (h : BreaksOff (ChainWithin n) stop 0 ts offset) :
    ∃ k t, full[k]? = some t ∧ offset = t.offset ∧
      IsLeast {j | j < full.length ∧ ¬Viable ((full.take (j + 1)).map Token.symbol)} k ∧
      ∃ more d m, Chain ((full.take k).map Token.symbol ++ more) d m ∧ m ≤ n := by
  obtain ⟨used, rest, more, rfl, hoffset, hnone, -, d, m, hchain, hm⟩ := h
  -- The end of the text is the next token if there is no other.
  obtain ⟨after, hafter⟩ : ∃ after, rest ++ [⟨.finish, stop⟩] = nextToken stop rest :: after := by
    cases rest with
    | nil => exact ⟨[], rfl⟩
    | cons t rest => exact ⟨rest ++ [⟨.finish, stop⟩], rfl⟩
  have hsplit : full = used ++ nextToken stop rest :: after := by
    rw [hfull, List.append_assoc, hafter]
  have hbefore : full.take used.length = used := by
    rw [hsplit, List.take_left]
  have hwith : full.take (used.length + 1) = used ++ [nextToken stop rest] := by
    have hlength : (used ++ [nextToken stop rest]).length = used.length + 1 := by simp
    rw [hsplit, List.append_cons, ← hlength, List.take_left]
  refine ⟨used.length, nextToken stop rest, ?_, hoffset.symm, ⟨⟨?_, ?_⟩, ?_⟩, more, d, m, ?_, hm⟩
  · rw [hsplit]
    simp
  · rw [hsplit]
    simp
  · rw [hwith, List.map_append, List.map_singleton]
    exact fun hviable => hviable.run_ne_none hnone
  · rintro j ⟨-, hj⟩
    refine Nat.le_of_not_lt fun hlt => hj ?_
    refine hchain.viable.of_prefix (List.IsPrefix.map _ ?_)
    conv_rhs => rw [← hbefore]
    exact List.take_prefix_take_left hlt
  · rwa [hbefore]

/-- A text that is cut into tokens and refused as an equation is refused with a parse error. Unless
this is for its nesting, the offset is that of the first token with which the tokens up to it, the
end of the text among them, are no longer the start of an equation's: up to this token they can be
completed to an equation within the nesting limit, and the text before the offset can be completed
to one that is read. -/
theorem isLeast_of_refused {text : String} {ts : List Token} (hts : Tokens.ofText text = .ok ts)
    {error : LutError} (h : ofText text = .error error) :
    ∃ e, error = .parse e ∧ (e.cause ≠ .nestedTooDeeply → ∃ k t, ts[k]? = some t ∧
      e.offset = t.offset ∧
      IsLeast {j | j < ts.length ∧ ¬Viable ((ts.take (j + 1)).map Token.symbol)} k ∧
      (∃ more d n, Chain ((ts.take k).map Token.symbol ++ more) d n ∧ n ≤ 256) ∧
      ∃ before more d, text = before ++ e.fragment ∧ before.utf8ByteSize = e.offset ∧
        ofText (before ++ more) = .ok d) := by
  obtain ⟨f, hf, rfl⟩ := Fault.within_eq_error_iff.mp h
  refine ⟨_, rfl, fun hcause => ?_⟩
  obtain ⟨l, rfl, rfl⟩ := Tokens.exists_layout_of_ofText hts
  have hread : readTokens ⟨Layout.tokensFrom 0 l.lexemes, Text.byteCount l.chars⟩ = .error f := by
    unfold read at hf
    rwa [Layout.text, String.toList_ofList, l.scan_chars] at hf
  have hwritten := Tokens.written_of_scanFrom (l.scanFrom_chars_layout 0)
  have hbreaks := breaksOff_of_readTokens hwritten hread hcause
  obtain ⟨before, cs, more, d, hchars, hbytes, hd⟩ := hbreaks.exists_completion
  have hoffset : (ParseError.ofFault .equation l.text f).offset = f.offset := by
    refine ParseError.offset_ofFault_of_le ?_
    rw [Layout.text, String.toList_ofList, hchars, Text.byteCount_append]
    omega
  have hfragment : (ParseError.ofFault .equation l.text f).fragment = String.ofList cs := by
    have hinput : (ParseError.ofFault .equation l.text f).input.toList = before ++ cs := by
      rw [← hchars]
      exact String.toList_ofList
    rw [ParseError.fragment, hoffset, hinput, ← hbytes, Text.afterBytes_byteCount_append]
  have htokens : l.tokens =
      Layout.tokensFrom 0 l.lexemes ++ [⟨.finish, Text.byteCount l.chars⟩] := by
    rw [Layout.tokens, l.utf8ByteSize_text]
  obtain ⟨k, t, ht, hkt, hleast, hpart⟩ := hbreaks.isLeast htokens
  refine ⟨k, t, ht, hoffset.trans hkt, hleast, hpart, String.ofList before, String.ofList more, d,
    ?_, ?_, ?_⟩
  · rw [hfragment, ← String.ofList_append, ← hchars, Layout.text]
  · rw [hoffset, ← hbytes, ← Text.byteCount_toList, String.toList_ofList]
  · rw [ofText, ← String.ofList_append, String.toList_ofList]
    exact Fault.within_eq_ok_iff.mpr hd

/-- `(A1+~)*0` is refused at byte 5 for its closing parenthesis, which is the first token with which
no equation starts, and the five bytes before it can be completed to an equation. -/
theorem isLeast_of_refused_inverted :
    ∃ ts e, Tokens.ofText "(A1+~)*0" = .ok ts ∧ ofText "(A1+~)*0" = .error (.parse e) ∧
      e.cause = .expectedInput .rightParen ∧ (∃ k t, ts[k]? = some t ∧ t.offset = 5 ∧
        IsLeast {j | j < ts.length ∧ ¬Viable ((ts.take (j + 1)).map Token.symbol)} k) ∧
      ∃ before more d, "(A1+~)*0" = before ++ ")*0" ∧ ofText (before ++ more) = .ok d := by
  have htokens : Tokens.ofText "(A1+~)*0" = .ok [⟨.leftParen, 0⟩, ⟨.pin 1, 1⟩, ⟨.op .or, 3⟩,
      ⟨.tilde, 4⟩, ⟨.rightParen, 5⟩, ⟨.op .and, 6⟩, ⟨.zero, 7⟩, ⟨.finish, 8⟩] := rfl
  have herror : ofText "(A1+~)*0" =
      .error (.parse ⟨.equation, "(A1+~)*0", 5, .expectedInput .rightParen⟩) := rfl
  obtain ⟨e, he, hplace⟩ := isLeast_of_refused htokens herror
  cases he
  obtain ⟨k, t, ht, hoffset, hleast, -, before, more, d, htext, -, hd⟩ := hplace nofun
  have hfragment : ParseError.fragment ⟨.equation, "(A1+~)*0", 5, .expectedInput .rightParen⟩ =
      ")*0" := by decide
  rw [hfragment] at htext
  exact ⟨_, _, htokens, herror, rfl, ⟨k, t, ht, hoffset.symm, hleast⟩, before, more, d, htext, hd⟩

end Equation

end LutLogic
