import LutLogic.Proofs.Equation.Grammar
import LutLogic.Proofs.Error.Place

/-!
# Where an equation is at fault

A text is cut into tokens character by character, with the bytes added up on the way, so every token
starts at a place of the text and what cannot be cut off is refused at one (`isPlace_of_scanFrom`).
Reading the tokens reports the offset of one of them or of the end of the text
(`offset_mem_of_readChain`). The induction is on the levels that are left: a chain is read in the
same way at every level, so `offset_mem_of_readLevel` needs of what lies deeper only that it reports
such an offset too and leaves the last of its tokens.
-/

namespace LutLogic

namespace Tokens

open Text

/-! ## Cutting a text -/

/-- A blank is one byte. -/
theorem utf8Size_of_isBlank {c : Char} (h : isBlank c = true) : c.utf8Size = 1 := by
  simp only [isBlank, Bool.or_eq_true, decide_eq_true_eq] at h
  rcases h with (((rfl | rfl) | rfl) | rfl) | rfl <;> rfl

/-- A character that stands for a symbol is one byte. -/
theorem utf8Size_of_ofChar? {c : Char} {s : Symbol} (h : Symbol.ofChar? c = some s) :
    c.utf8Size = 1 := by
  unfold Symbol.ofChar? at h
  split at h
  case h_6 =>
    obtain ⟨op, hop, -⟩ := Option.map_eq_some_iff.mp h
    rw [BinaryOp.ofSymbol?_eq_some_iff.mp hop]
    cases op <;> rfl
  all_goals rfl

/-- The digit of a pin is one byte. -/
theorem utf8Size_of_pinOfDigit? {c : Char} {index : Nat} (h : pinOfDigit? c = some index) :
    c.utf8Size = 1 := by
  unfold pinOfDigit? at h
  split at h
  · next hc =>
    have h6 : c.toNat ≤ 54 := hc.2
    refine Char.utf8Size_eq_one_iff.mpr (UInt32.le_iff_toNat_le.mpr ?_)
    exact Nat.le_trans h6 (by decide)
  · cases h

/-- A text is cut at places, and what cannot be cut off is refused at a place. -/
theorem isPlace_of_scanFrom (pos : Nat) (cs : List Char) :
    (∀ ts, scanFrom pos cs = .ok ts → ∀ t ∈ ts, IsPlace pos cs t.offset) ∧
      ∀ f, scanFrom pos cs = .error f → IsPlace pos cs f.offset := by
  fun_induction scanFrom pos cs with
  | case1 pos =>
    constructor
    · rintro ts ⟨⟩
      nofun
    · nofun
  | case2 pos =>
    constructor
    · nofun
    · rintro f ⟨⟩
      exact isPlace_start pos _
  | case3 pos d rest hd =>
    constructor
    · nofun
    · rintro f ⟨⟩
      exact isPlace_start pos _
  | case4 pos d rest index hd ih =>
    -- The pin takes two bytes, and the rest is cut after them.
    have hmove {p : Nat} (hp : IsPlace (pos + 2) rest p) : IsPlace pos ('A' :: d :: rest) p := by
      refine IsPlace.cons (IsPlace.cons ?_)
      rw [utf8Size_of_pinOfDigit? hd]
      exact hp
    constructor
    · intro ts h
      obtain ⟨us, hus, rfl⟩ := map_eq_ok_iff.mp h
      exact List.forall_mem_cons.mpr
        ⟨isPlace_start pos _, fun t ht => hmove (ih.1 us hus t ht)⟩
    · intro f h
      exact hmove (ih.2 f (map_eq_error_iff.mp h))
  | case5 pos c cs hA hblank ih =>
    have hmove {p : Nat} (hp : IsPlace (pos + 1) cs p) : IsPlace pos (c :: cs) p := by
      refine IsPlace.cons ?_
      rwa [utf8Size_of_isBlank hblank]
    exact ⟨fun ts h t ht => hmove (ih.1 ts h t ht), fun f h => hmove (ih.2 f h)⟩
  | case6 pos c cs hA hblank hc =>
    constructor
    · nofun
    · rintro f ⟨⟩
      exact isPlace_start pos _
  | case7 pos c cs hA hblank s hc ih =>
    have hmove {p : Nat} (hp : IsPlace (pos + 1) cs p) : IsPlace pos (c :: cs) p := by
      refine IsPlace.cons ?_
      rwa [utf8Size_of_ofChar? hc]
    constructor
    · intro ts h
      obtain ⟨us, hus, rfl⟩ := map_eq_ok_iff.mp h
      exact List.forall_mem_cons.mpr
        ⟨isPlace_start pos _, fun t ht => hmove (ih.1 us hus t ht)⟩
    · intro f h
      exact hmove (ih.2 f (map_eq_error_iff.mp h))

end Tokens

namespace Equation

open Text

/-! ## What is refused -/

/-- The ways in which an operand is refused: none starts, no pin follows an inversion mark, or a
group is refused or not closed. The fault is at the next token. -/
theorem readOperand_eq_error {stop : Nat} {deeper : List Token → Reading} {ts : List Token}
    {f : Fault} (h : readOperand stop deeper ts = .error f) :
    (f.offset = (nextToken stop ts).offset ∧ ((nextToken stop ts).symbol = .rightParen ∨
        (nextToken stop ts).symbol = .finish ∨ ∃ op, (nextToken stop ts).symbol = .op op)) ∨
      (∃ t us, ts = t :: us ∧ t.symbol = .tilde ∧ f.offset = (nextToken stop us).offset ∧
        ∀ index, (nextToken stop us).symbol ≠ .pin index) ∨
      ∃ t us, ts = t :: us ∧ t.symbol = .leftParen ∧ (deeper us = .error f ∨
        ∃ e vs, deeper us = .ok (e, vs) ∧ f.offset = (nextToken stop vs).offset ∧
          (nextToken stop vs).symbol ≠ .rightParen) := by
  cases ts with
  | nil =>
    cases h
    exact .inl ⟨rfl, .inr (.inl rfl)⟩
  | cons t ts =>
    unfold readOperand at h
    dsimp only at h
    split at h
    · cases h
    · cases h
    · cases h
    · next ht =>
      refine .inr (.inl ⟨t, ts, rfl, ht, ?_⟩)
      split at h
      · cases h
        exact ⟨rfl, fun index hpin => by cases hpin⟩
      · split at h
        · cases h
        · next hnot =>
          cases h
          exact ⟨rfl, hnot⟩
    · next ht =>
      refine .inr (.inr ⟨t, ts, rfl, ht, ?_⟩)
      split at h
      · next hd =>
        cases h
        exact .inl hd
      · next e us hd =>
        refine .inr ⟨e, us, hd, ?_⟩
        split at h
        · cases h
          exact ⟨rfl, fun hparen => by cases hparen⟩
        · split at h
          · cases h
          · next hnot =>
            cases h
            exact ⟨rfl, hnot⟩
    · next hzero hone hpin htilde hparen =>
      cases h
      refine .inl ⟨rfl, ?_⟩
      change t.symbol = .rightParen ∨ t.symbol = .finish ∨ ∃ op, t.symbol = .op op
      cases ht : t.symbol with
      | zero => exact absurd ht hzero
      | one => exact absurd ht hone
      | pin index => exact absurd ht (hpin index)
      | tilde => exact absurd ht htilde
      | leftParen => exact absurd ht hparen
      | op op => exact .inr (.inr ⟨op, rfl⟩)
      | rightParen => exact .inl rfl
      | finish => exact .inr (.inl rfl)

/-- The ways in which a chain is refused: for its first operand, or for what follows an operator. -/
theorem readLevel_eq_error {stop : Nat} {deeper : List Token → Reading} {ts : List Token}
    {f : Fault} (h : readLevel stop deeper ts = .error f) :
    readOperand stop deeper ts = .error f ∨ ∃ left op u us,
      readOperand stop deeper ts = .ok (left, u :: us) ∧ u.symbol = .op op ∧
        deeper us = .error f := by
  unfold readLevel at h
  split at h
  · next g hg =>
    cases h
    exact .inl hg
  · cases h
  · next left u us hl =>
    split at h
    · next op hu =>
      split at h
      · next g hg =>
        cases h
        exact .inr ⟨left, op, u, us, hl, hu, hg⟩
      · cases h
    · cases h

/-! ## Reading tokens -/

/-- The offsets that a fault in tokens can name: those of the tokens and the one of the end. -/
def places (stop : Nat) (ts : List Token) : List Nat := stop :: ts.map Token.offset

/-- The offset of a token is one of the offsets. -/
theorem offset_mem_places {stop : Nat} {t : Token} {ts : List Token} (h : t ∈ ts) :
    t.offset ∈ places stop ts :=
  List.mem_cons_of_mem stop (List.mem_map_of_mem h)

/-- The offset of the next token is one of the offsets. -/
theorem offset_nextToken_mem (stop : Nat) (ts : List Token) :
    (nextToken stop ts).offset ∈ places stop ts := by
  cases ts with
  | nil => exact List.mem_cons_self
  | cons t ts => exact offset_mem_places List.mem_cons_self

/-- The offsets of the tokens that are left are offsets of the tokens. -/
theorem places_subset {stop : Nat} {ts us : List Token} (h : us <:+ ts) :
    places stop us ⊆ places stop ts :=
  List.cons_subset_cons stop (List.map_subset Token.offset h.subset)

/-- What an operand is refused for is at a token or at the end, if this is so deeper. -/
theorem offset_mem_of_readOperand {stop : Nat} {deeper : List Token → Reading} {ts : List Token}
    {f : Fault} (herror : ∀ us f, deeper us = .error f → f.offset ∈ places stop us)
    (hrest : ∀ us e rest, deeper us = .ok (e, rest) → rest <:+ us)
    (h : readOperand stop deeper ts = .error f) : f.offset ∈ places stop ts := by
  obtain ⟨hf, -⟩ | ⟨t, us, rfl, -, hf, -⟩ | ⟨t, us, rfl, -, hd⟩ := readOperand_eq_error h
  · rw [hf]
    exact offset_nextToken_mem stop ts
  · rw [hf]
    exact places_subset (List.suffix_cons t us) (offset_nextToken_mem stop us)
  · refine places_subset (List.suffix_cons t us) ?_
    obtain hd | ⟨e, vs, hd, hf, -⟩ := hd
    · exact herror us f hd
    · rw [hf]
      exact places_subset (hrest us e vs hd) (offset_nextToken_mem stop vs)

/-- What is left after an operand is the end of what was there, if this is so deeper. -/
theorem suffix_of_readOperand {stop : Nat} {deeper : List Token → Reading} {ts rest : List Token}
    {e : Equation} (hrest : ∀ us e rest, deeper us = .ok (e, rest) → rest <:+ us)
    (h : readOperand stop deeper ts = .ok (e, rest)) : rest <:+ ts := by
  obtain ⟨t, rfl, -⟩ | ⟨t, u, rfl, -⟩ | ⟨t, u, us, rfl, -, hd, -⟩ := readOperand_eq_ok h
  · exact List.suffix_cons t rest
  · exact (List.suffix_cons u rest).trans (List.suffix_cons t _)
  · exact (List.suffix_cons u rest).trans ((hrest us e _ hd).trans (List.suffix_cons t us))

/-- What is left after a part that lies deeper is the end of what was there. -/
theorem suffix_of_readDeeper {stop n : Nat} (us : List Token) (e : Equation) (rest : List Token)
    (h : readDeeper stop n us = .ok (e, rest)) : rest <:+ us := by
  obtain ⟨used, m, rfl, -⟩ := deeperSound stop n us e rest h
  exact List.suffix_append used rest

/-- What a chain is refused for is at a token or at the end, if this is so deeper. -/
theorem offset_mem_of_readLevel {stop : Nat} {deeper : List Token → Reading} {ts : List Token}
    {f : Fault} (herror : ∀ us f, deeper us = .error f → f.offset ∈ places stop us)
    (hrest : ∀ us e rest, deeper us = .ok (e, rest) → rest <:+ us)
    (h : readLevel stop deeper ts = .error f) : f.offset ∈ places stop ts := by
  obtain hl | ⟨left, op, u, us, hl, -, hr⟩ := readLevel_eq_error h
  · exact offset_mem_of_readOperand herror hrest hl
  · have hsuffix : us <:+ ts := (List.suffix_cons u us).trans (suffix_of_readOperand hrest hl)
    exact places_subset hsuffix (herror us f hr)

/-- What a chain is refused for is at one of its tokens or at the end of the text. -/
theorem offset_mem_of_readChain {stop n : Nat} {ts : List Token} {f : Fault}
    (h : readChain stop n ts = .error f) : f.offset ∈ places stop ts := by
  induction n generalizing ts f with
  | zero =>
    rw [readChain_eq] at h
    refine offset_mem_of_readLevel (fun us g hg => ?_) suffix_of_readDeeper h
    -- The limit is reported at the token that would have to be read.
    cases hg
    exact offset_nextToken_mem stop us
  | succ n ih =>
    rw [readChain_eq] at h
    exact offset_mem_of_readLevel (fun us g hg => ih hg) (suffix_of_readDeeper (n := n + 1)) h

/-- An equation is refused at a place of its text. -/
theorem isPlace_of_read {text : List Char} {f : Fault} (h : read text = .error f) :
    IsPlace 0 text f.offset := by
  unfold read at h
  split at h
  · next g hg =>
    cases h
    exact (Tokens.isPlace_of_scanFrom 0 text).2 f (map_eq_error_iff.mp hg)
  · next ts hts =>
    obtain ⟨us, hus, rfl⟩ := map_eq_ok_iff.mp hts
    have hplace {p : Nat} (hp : p ∈ places (byteCount text) us) : IsPlace 0 text p := by
      obtain rfl | hp := List.mem_cons.mp hp
      · exact isPlace_end text
      · obtain ⟨t, ht, rfl⟩ := List.mem_map.mp hp
        exact (Tokens.isPlace_of_scanFrom 0 text).1 us hus t ht
    unfold readTokens at h
    split at h
    · next g hg =>
      cases h
      exact hplace (offset_mem_of_readChain hg)
    · cases h
    · next e u vs hread =>
      cases h
      obtain ⟨used, m, hsplit, -⟩ := readChain_sound hread
      have hmem : u ∈ us := by
        rw [show us = used ++ u :: vs from hsplit]
        simp
      exact hplace (offset_mem_places hmem)

end Equation

end LutLogic
