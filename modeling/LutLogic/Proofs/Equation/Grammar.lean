import LutLogic.Equation.Parser

/-!
# The grammar of equation text

A chain is an operand, or an operand, an operator and a chain; an operand is a constant, a pin that
may be inverted, or a chain in parentheses. `Grammar.Operand` and `Grammar.Chain` are this grammar
over symbols, with the equation that a derivation stands for and the number of levels that it nests.
A group nests one level more than its chain. An operation nests as its left operand or one level
more than its right one, whichever is more: levels are counted along one path and are not added up
over parts that stand side by side.

Reading is exact for this grammar. What `readChain` accepts has a derivation within the levels that
were left (`readChain_sound`). Conversely a derivation determines the outcome (`Chain.reads`): the
equation and the tokens after it if the levels suffice, and a fault of nesting if they do not.
-/

namespace LutLogic

namespace Grammar

open Equation

mutual

/-- The symbols of an operand, its equation, and the levels that it nests. -/
inductive Operand : List Symbol → Equation → Nat → Prop where
  /-- The constant `0`. -/
  | zero : Operand [.zero] (constant false) 0
  /-- The constant `1`. -/
  | one : Operand [.one] (constant true) 0
  /-- A pin. -/
  | pin (index : Nat) : Operand [.pin index] (plain index) 0
  /-- An inverted pin. -/
  | inverted (index : Nat) : Operand [.tilde, .pin index] (inverted index) 0
  /-- A chain in parentheses. -/
  | group {ss : List Symbol} {e : Equation} {n : Nat} (inner : Chain ss e n) :
    Operand (.leftParen :: (ss ++ [.rightParen])) e (n + 1)

/-- The symbols of a chain, its equation, and the levels that it nests. -/
inductive Chain : List Symbol → Equation → Nat → Prop where
  /-- A single operand. -/
  | single {ss : List Symbol} {e : Equation} {n : Nat} (operand : Operand ss e n) : Chain ss e n
  /-- An operand, an operator and the rest of the chain as the right operand. -/
  | operation {ls rs : List Symbol} {left right : Equation} {m n : Nat} (op : BinaryOp)
    (first : Operand ls left m) (rest : Chain rs right n) :
    Chain (ls ++ .op op :: rs) (binary op left right) (max m (n + 1))

end

end Grammar

namespace Equation

open Grammar

/-- Reads what lies one level deeper than a chain that may go `levels` levels deeper. -/
def readDeeper (stop : Nat) : Nat → List Token → Reading
  | 0 => fun ts => .error ⟨(nextToken stop ts).offset, .nestedTooDeeply⟩
  | levels + 1 => readChain stop levels

/-- Every chain is read in the same way, whatever may lie deeper. -/
theorem readChain_eq (stop levels : Nat) :
    readChain stop levels = readLevel stop (readDeeper stop levels) := by
  cases levels <;> rfl

/-! ## What is accepted is derived -/

/-- The ways in which an operand is accepted. -/
theorem readOperand_eq_ok {stop : Nat} {deeper : List Token → Reading} {ts rest : List Token}
    {e : Equation} (h : readOperand stop deeper ts = .ok (e, rest)) :
    (∃ t, ts = t :: rest ∧ Operand [t.symbol] e 0) ∨
      (∃ t u, ts = t :: u :: rest ∧ Operand [t.symbol, u.symbol] e 0) ∨
      ∃ t u us, ts = t :: us ∧ t.symbol = .leftParen ∧ deeper us = .ok (e, u :: rest) ∧
        u.symbol = .rightParen := by
  cases ts with
  | nil => cases h
  | cons t ts =>
    unfold readOperand at h
    dsimp only at h
    split at h
    · next ht => cases h; exact .inl ⟨t, rfl, ht ▸ .zero⟩
    · next ht => cases h; exact .inl ⟨t, rfl, ht ▸ .one⟩
    · next index ht => cases h; exact .inl ⟨t, rfl, ht ▸ .pin index⟩
    · next ht =>
      split at h
      · cases h
      · next u us =>
        split at h
        · next index hu => cases h; exact .inr (.inl ⟨t, u, rfl, ht ▸ hu ▸ .inverted index⟩)
        · cases h
    · next ht =>
      split at h
      · cases h
      · next e' us hd =>
        split at h
        · cases h
        · next u vs =>
          split at h
          · next hu => cases h; exact .inr (.inr ⟨t, u, ts, rfl, ht, hd, hu⟩)
          · cases h
    · cases h

/-- The ways in which a chain is accepted. -/
theorem readLevel_eq_ok {stop : Nat} {deeper : List Token → Reading} {ts rest : List Token}
    {e : Equation} (h : readLevel stop deeper ts = .ok (e, rest)) :
    readOperand stop deeper ts = .ok (e, rest) ∨
      ∃ left right op u us, readOperand stop deeper ts = .ok (left, u :: us) ∧
        u.symbol = .op op ∧ deeper us = .ok (right, rest) ∧ e = binary op left right := by
  unfold readLevel at h
  split at h
  · cases h
  · next hl => cases h; exact .inl hl
  · next left u us hl =>
    split at h
    · next op hu =>
      split at h
      · cases h
      · next right vs hr => cases h; exact .inr ⟨left, right, op, u, us, hl, hu, hr, rfl⟩
    · cases h; exact .inl hl

/-- What is accepted one level deeper is a chain, and with this level it nests no more than the
levels that were left. -/
def DeeperSound (stop n : Nat) : Prop :=
  ∀ ts e rest, readDeeper stop n ts = .ok (e, rest) →
    ∃ used m, ts = used ++ rest ∧ m + 1 ≤ n ∧ Chain (used.map Token.symbol) e m

/-- What is accepted as an operand is one, and it nests no more than the levels that were left, if
this is so deeper. -/
theorem readOperand_sound {stop n : Nat} (hdeeper : DeeperSound stop n) {ts rest : List Token}
    {e : Equation} (h : readOperand stop (readDeeper stop n) ts = .ok (e, rest)) :
    ∃ used m, ts = used ++ rest ∧ m ≤ n ∧ Operand (used.map Token.symbol) e m := by
  obtain ⟨t, rfl, ho⟩ | ⟨t, u, rfl, ho⟩ | ⟨t, u, us, rfl, ht, hd, hu⟩ := readOperand_eq_ok h
  · exact ⟨[t], 0, rfl, Nat.zero_le n, ho⟩
  · exact ⟨[t, u], 0, rfl, Nat.zero_le n, ho⟩
  · obtain ⟨used, m, rfl, hm, hc⟩ := hdeeper us e _ hd
    refine ⟨t :: (used ++ [u]), m + 1, by simp, hm, ?_⟩
    rw [List.map_cons, List.map_append, List.map_singleton, ht, hu]
    exact .group hc

/-- What is accepted as a chain is one, and it nests no more than the levels that were left, if this
is so deeper. -/
theorem readLevel_sound {stop n : Nat} (hdeeper : DeeperSound stop n) {ts rest : List Token}
    {e : Equation} (h : readLevel stop (readDeeper stop n) ts = .ok (e, rest)) :
    ∃ used m, ts = used ++ rest ∧ m ≤ n ∧ Chain (used.map Token.symbol) e m := by
  obtain hl | ⟨left, right, op, u, us, hl, hu, hr, rfl⟩ := readLevel_eq_ok h
  · obtain ⟨used, m, hts, hm, ho⟩ := readOperand_sound hdeeper hl
    exact ⟨used, m, hts, hm, .single ho⟩
  · obtain ⟨ls, m, rfl, hm, ho⟩ := readOperand_sound hdeeper hl
    obtain ⟨rs, k, rfl, hk, hc⟩ := hdeeper us right rest hr
    refine ⟨ls ++ u :: rs, max m (k + 1), by simp, Nat.max_le.mpr ⟨hm, hk⟩, ?_⟩
    rw [List.map_append, List.map_cons, hu]
    exact .operation op ho hc

/-- At every level what is accepted deeper is a chain. -/
theorem deeperSound (stop n : Nat) : DeeperSound stop n := by
  induction n with
  | zero =>
    intro ts e rest h
    cases h
  | succ n ih =>
    -- One level deeper there is a level less.
    intro ts e rest h
    have hlevel : readLevel stop (readDeeper stop n) ts = .ok (e, rest) := readChain_eq stop n ▸ h
    obtain ⟨used, m, hts, hm, hc⟩ := readLevel_sound ih hlevel
    exact ⟨used, m, hts, Nat.succ_le_succ hm, hc⟩

/-- What is accepted as a chain is one, and it nests no more than the levels that were left. -/
theorem readChain_sound {stop n : Nat} {ts rest : List Token} {e : Equation}
    (h : readChain stop n ts = .ok (e, rest)) :
    ∃ used m, ts = used ++ rest ∧ m ≤ n ∧ Chain (used.map Token.symbol) e m := by
  rw [readChain_eq] at h
  exact readLevel_sound (deeperSound stop n) h

/-! ## What is derived is accepted if its levels suffice -/

/-- Reading gives the equation and the tokens after it if `m` levels are no more than the `n` that
were left, and otherwise it reports the nesting. -/
def ReadsWithin (m n : Nat) (reading : Reading) (e : Equation) (rest : List Token) : Prop :=
  (m ≤ n → reading = .ok (e, rest)) ∧
    (n < m → ∃ offset, reading = .error ⟨offset, .nestedTooDeeply⟩)

/-- What nests no level is read whatever was left. -/
theorem readsWithin_zero {n : Nat} {reading : Reading} {e : Equation} {rest : List Token}
    (h : reading = .ok (e, rest)) : ReadsWithin 0 n reading e rest :=
  ⟨fun _ => h, fun hn => absurd hn (Nat.not_lt_zero n)⟩

/-- What a chain nests counts for one level more where it lies deeper. -/
theorem readsWithin_deeper {m stop : Nat} {ts rest : List Token} {e : Equation}
    (h : ∀ n, ReadsWithin m n (readChain stop n ts) e rest) (n : Nat) :
    ReadsWithin (m + 1) n (readDeeper stop n ts) e rest := by
  cases n with
  | zero => exact ⟨fun hm => absurd hm (by omega), fun _ => ⟨_, rfl⟩⟩
  | succ n =>
    obtain ⟨hok, herror⟩ := h n
    exact ⟨fun hm => hok (by omega), fun hm => herror (by omega)⟩

/-- A group is read as its chain, one level deeper. -/
theorem readOperand_group {m n stop : Nat} {t u : Token} {ts rest : List Token} {e : Equation}
    (ht : t.symbol = .leftParen) (hu : u.symbol = .rightParen)
    (h : ReadsWithin m n (readDeeper stop n ts) e (u :: rest)) :
    ReadsWithin m n (readOperand stop (readDeeper stop n) (t :: ts)) e rest := by
  obtain ⟨hok, herror⟩ := h
  constructor
  · intro hm
    simp only [readOperand, ht, hok hm, hu, if_true]
  · intro hm
    obtain ⟨offset, hd⟩ := herror hm
    exact ⟨offset, by simp only [readOperand, ht, hd]⟩

/-- An operand that no operator follows is the whole chain. -/
theorem readLevel_single {m n stop : Nat} {ts rest : List Token} {e : Equation}
    (hrest : ∀ u us op, rest = u :: us → u.symbol ≠ .op op)
    (h : ReadsWithin m n (readOperand stop (readDeeper stop n) ts) e rest) :
    ReadsWithin m n (readLevel stop (readDeeper stop n) ts) e rest := by
  obtain ⟨hok, herror⟩ := h
  constructor
  · intro hm
    rw [readLevel, hok hm]
    cases rest with
    | nil => rfl
    | cons u us =>
      dsimp only
      split
      · next op hu => exact absurd hu (hrest u us op rfl)
      · rfl
  · intro hm
    obtain ⟨offset, hd⟩ := herror hm
    exact ⟨offset, by rw [readLevel, hd]⟩

/-- After an operand and an operator the rest of the chain is read one level deeper. -/
theorem readLevel_operation {k m n stop : Nat} {op : BinaryOp} {u : Token}
    {ts us rest : List Token} {left right : Equation} (hu : u.symbol = .op op)
    (hl : ReadsWithin k n (readOperand stop (readDeeper stop n) ts) left (u :: us))
    (hr : ReadsWithin m n (readDeeper stop n us) right rest) :
    ReadsWithin (max k m) n (readLevel stop (readDeeper stop n) ts) (binary op left right)
      rest := by
  constructor
  · intro hm
    have hlok := hl.1 (Nat.le_trans (Nat.le_max_left k m) hm)
    have hrok := hr.1 (Nat.le_trans (Nat.le_max_right k m) hm)
    simp only [readLevel, hlok, hu, hrok]
  · intro hm
    -- The left operand is read first, and so is its fault of nesting.
    rcases Nat.lt_or_ge n k with hk | hk
    · obtain ⟨offset, hd⟩ := hl.2 hk
      exact ⟨offset, by rw [readLevel, hd]⟩
    · obtain ⟨offset, hd⟩ := hr.2 (by omega)
      exact ⟨offset, by simp only [readLevel, hl.1 hk, hu, hd]⟩

end Equation

namespace Grammar

open Equation

mutual

/-- Reading an operand gives its equation if its levels suffice. -/
theorem Operand.reads (stop n : Nat) {ss : List Symbol} {e : Equation} {m : Nat} {ts : List Token}
    (rest : List Token) (hts : ts.map Token.symbol = ss) : Operand ss e m →
    ReadsWithin m n (readOperand stop (readDeeper stop n) (ts ++ rest)) e rest
  | .zero => by
    obtain ⟨t, rfl, ht⟩ := List.map_eq_singleton_iff.mp hts
    exact readsWithin_zero (by simp only [readOperand, List.singleton_append, ht])
  | .one => by
    obtain ⟨t, rfl, ht⟩ := List.map_eq_singleton_iff.mp hts
    exact readsWithin_zero (by simp only [readOperand, List.singleton_append, ht])
  | .pin index => by
    obtain ⟨t, rfl, ht⟩ := List.map_eq_singleton_iff.mp hts
    exact readsWithin_zero (by simp only [readOperand, List.singleton_append, ht])
  | .inverted index => by
    obtain ⟨t, us, rfl, ht, hus⟩ := List.map_eq_cons_iff.mp hts
    obtain ⟨u, rfl, hu⟩ := List.map_eq_singleton_iff.mp hus
    exact readsWithin_zero
      (by simp only [readOperand, List.cons_append, List.nil_append, ht, hu])
  | .group inner => by
    obtain ⟨t, us, rfl, ht, hus⟩ := List.map_eq_cons_iff.mp hts
    obtain ⟨inside, vs, rfl, hinside, hvs⟩ := List.map_eq_append_iff.mp hus
    obtain ⟨u, rfl, hu⟩ := List.map_eq_singleton_iff.mp hvs
    rw [List.cons_append, List.append_assoc, List.singleton_append]
    -- The closing parenthesis is no operator, so the chain ends before it.
    have hend : ∀ v vs op, u :: rest = v :: vs → v.symbol ≠ .op op := by
      rintro v vs op ⟨⟩
      rw [hu]
      nofun
    exact readOperand_group ht hu
      (readsWithin_deeper (fun n => Chain.reads stop n (u :: rest) hend hinside inner) n)

/-- Reading a chain that no operator follows gives its equation if its levels suffice. -/
theorem Chain.reads (stop n : Nat) {ss : List Symbol} {e : Equation} {m : Nat} {ts : List Token}
    (rest : List Token) (hrest : ∀ u us op, rest = u :: us → u.symbol ≠ .op op)
    (hts : ts.map Token.symbol = ss) : Chain ss e m →
    ReadsWithin m n (readChain stop n (ts ++ rest)) e rest
  | .single operand => by
    rw [readChain_eq]
    exact readLevel_single hrest (Operand.reads stop n rest hts operand)
  | .operation op first more => by
    obtain ⟨ls, us, rfl, hls, hus⟩ := List.map_eq_append_iff.mp hts
    obtain ⟨u, rs, rfl, hu, hrs⟩ := List.map_eq_cons_iff.mp hus
    rw [readChain_eq, List.append_assoc, List.cons_append]
    exact readLevel_operation hu (Operand.reads stop n _ hls first)
      (readsWithin_deeper (fun n => Chain.reads stop n rest hrest hrs more) n)

end

/-- Symbols have one derivation at most: its equation and its levels are determined. -/
theorem Chain.unique {ss : List Symbol} {d e : Equation} {m n : Nat} (hd : Chain ss d m)
    (he : Chain ss e n) : d = e ∧ m = n := by
  have hts : (ss.map (Token.mk · 0)).map Token.symbol = ss := by
    rw [List.map_map]
    exact List.map_id' ss
  have hdr (k : Nat) := Chain.reads 0 k [] nofun hts hd
  have her (k : Nat) := Chain.reads 0 k [] nofun hts he
  have hmn : m = n := by
    rcases Nat.lt_trichotomy m n with h | h | h
    · obtain ⟨offset, herror⟩ := (her m).2 h
      cases ((hdr m).1 (Nat.le_refl m)).symm.trans herror
    · exact h
    · obtain ⟨offset, herror⟩ := (hdr n).2 h
      cases ((her n).1 (Nat.le_refl n)).symm.trans herror
  subst hmn
  cases ((hdr m).1 (Nat.le_refl m)).symm.trans ((her m).1 (Nat.le_refl m))
  exact ⟨rfl, rfl⟩

end Grammar

namespace Tokens

/-- The tokens of a text, up to its end. -/
theorem ofText_eq_ok_iff_scan {text : String} {ts : List Token} {stop : Nat} :
    ofText text = .ok (ts ++ [⟨.finish, stop⟩]) ↔ scan text.toList = .ok ⟨ts, stop⟩ := by
  unfold ofText
  rw [map_eq_ok_iff]
  constructor
  · rintro ⟨⟨us, stop'⟩, hus, heq⟩
    obtain ⟨rfl, hend⟩ := List.append_inj' heq rfl
    cases hend
    exact Fault.within_eq_ok_iff.mp hus
  · intro h
    exact ⟨_, Fault.within_eq_ok_iff.mpr h, rfl⟩

end Tokens

namespace Equation

open Grammar

/-- The tokens of a whole equation are those of a chain within the nesting limit. -/
theorem readTokens_eq_ok_iff {ts : Tokens} {e : Equation} :
    readTokens ts = .ok e ↔ ∃ n, Chain (ts.tokens.map Token.symbol) e n ∧ n ≤ maxNesting := by
  constructor
  · intro h
    unfold readTokens at h
    split at h
    · cases h
    · next e' hr =>
      cases h
      obtain ⟨used, n, hts, hn, hc⟩ := readChain_sound hr
      rw [List.append_nil] at hts
      exact ⟨n, hts ▸ hc, hn⟩
    · cases h
  · rintro ⟨n, hc, hn⟩
    have hr := (Chain.reads ts.stop maxNesting [] nofun rfl hc).1 hn
    rw [List.append_nil] at hr
    rw [readTokens, hr]

/-- A text stands for an equation exactly when its tokens do. -/
theorem read_eq_ok_iff {text : List Char} {e : Equation} :
    read text = .ok e ↔ ∃ ts, Tokens.scan text = .ok ts ∧ readTokens ts = .ok e := by
  unfold read
  cases Tokens.scan text with
  | error f => simp
  | ok ts => simp

/-- A text stands for an equation exactly when it can be cut into tokens whose symbols, without the
end of the text, are a chain of that equation that nests at most 256 levels. -/
theorem ofText_eq_ok_iff (text : String) (e : Equation) :
    ofText text = .ok e ↔
      ∃ ts stop n, Tokens.ofText text = .ok (ts ++ [⟨.finish, stop⟩]) ∧
        Chain (ts.map Token.symbol) e n ∧ n ≤ 256 := by
  unfold ofText
  rw [Fault.within_eq_ok_iff, read_eq_ok_iff]
  constructor
  · rintro ⟨⟨ts, stop⟩, hs, hr⟩
    obtain ⟨n, hc, hn⟩ := readTokens_eq_ok_iff.mp hr
    exact ⟨ts, stop, n, Tokens.ofText_eq_ok_iff_scan.mpr hs, hc, hn⟩
  · rintro ⟨ts, stop, n, hs, hc, hn⟩
    exact ⟨⟨ts, stop⟩, Tokens.ofText_eq_ok_iff_scan.mp hs, readTokens_eq_ok_iff.mpr ⟨n, hc, hn⟩⟩

end Equation

end LutLogic
