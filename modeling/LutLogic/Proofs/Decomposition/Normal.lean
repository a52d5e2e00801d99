import LutLogic.Proofs.Decomposition.Exact
import Mathlib.Order.Monotone.Basic

/-!
# Decoding gives normal forms, and exactly these

`Normal` describes the equations that decoding writes, by their shape alone: a constant, or an
equation that splits on its highest pin into different normal forms. Both directions go through
`select`: joining two different normal forms by a higher pin gives a normal form
(`branching_select`), and every normal form that is not a constant is joined in this way
(`Branching.exists_select`).

`normal_ofRows` says that whatever is decoded is a normal form, and `Normal.ofRows_eq` that a normal
form is decoded from the value that lists its outputs, so different normal forms are different
functions. Encoding an equation and decoding it again therefore changes nothing exactly if the
equation is a normal form over the pins of the width. `Normal.renumber` says that a renumbering that
keeps the order of the pins keeps normal forms.
-/

namespace LutLogic

/-- For every row there is one with the same first `k` inputs and any value of the next one. -/
theorem exists_row_half (row k : Nat) (b : Bool) :
    ∃ r, r.testBit k = b ∧ r % 2 ^ k = row % 2 ^ k := by
  have hlt : row % 2 ^ k < 2 ^ k := Nat.mod_lt _ (Nat.two_pow_pos k)
  cases b with
  | false => exact ⟨row % 2 ^ k, Nat.testBit_lt_two_pow hlt, Nat.mod_mod _ _⟩
  | true =>
    refine ⟨2 ^ k + row % 2 ^ k, ?_, ?_⟩
    · rw [Nat.testBit_two_pow_add_eq, Nat.testBit_lt_two_pow hlt, Bool.not_false]
    · rw [Nat.add_mod_left, Nat.mod_mod]

namespace Equation

/-! ## Normal forms -/

/-- A normal form that is not a constant. It branches on a pin that is higher than all others. -/
inductive Branching : Equation → Prop where
  /-- A pin, which may be inverted. -/
  | pin (i : Nat) (inv : Bool) : Branching (input i inv)
  /-- A pin and a branching normal form over lower pins. -/
  | and {i : Nat} {x : Equation} (inv : Bool) (hx : Branching x)
    (hlt : ∀ j ∈ x.usedInputs, j < i) : Branching (and (input i inv) x)
  /-- A pin or a branching normal form over lower pins. -/
  | or {i : Nat} {x : Equation} (inv : Bool) (hx : Branching x)
    (hlt : ∀ j ∈ x.usedInputs, j < i) : Branching (or (input i inv) x)
  /-- One of two different branching normal forms over lower pins, as a pin selects. -/
  | both {i : Nat} {l h : Equation} (hl : Branching l) (hh : Branching h) (hne : l ≠ h)
    (hltl : ∀ j ∈ l.usedInputs, j < i) (hlth : ∀ j ∈ h.usedInputs, j < i) :
    Branching (or (and (inverted i) l) (and (plain i) h))

/-- A normal form: a constant, or an equation that branches. -/
def Normal (e : Equation) : Prop := (∃ output, e = constant output) ∨ e.Branching

/-- An equation that branches is not a constant. -/
theorem Branching.constant? {e : Equation} (he : e.Branching) : e.constant? = none := by
  cases he <;> rfl

/-- Two different constants are joined to the pin. -/
theorem select_constants (i : Nat) (output : Bool) :
    select i (constant output) (constant !output) = input i output := by
  cases output <;> rfl

/-- A constant where the pin is 0 leaves the other part and the pin. -/
theorem select_constant_low (i : Nat) (output : Bool) {high : Equation}
    (h : high.constant? = none) :
    select i (constant output) high =
      if output then or (inverted i) high else and (plain i) high := by
  cases output with
  | false => rw [select, h]; rfl
  | true => rw [select, h]; rfl

/-- A constant where the pin is 1 leaves the other part and the pin. -/
theorem select_constant_high (i : Nat) (output : Bool) {low : Equation}
    (h : low.constant? = none) :
    select i low (constant output) =
      if output then or (plain i) low else and (inverted i) low := by
  cases output with
  | false => rw [select, h]; rfl
  | true => rw [select, h]; rfl

/-- Two parts that are no constants are both written. -/
theorem select_of_none (i : Nat) {low high : Equation} (hl : low.constant? = none)
    (hh : high.constant? = none) :
    select i low high = or (and (inverted i) low) (and (plain i) high) := by
  rw [select, hl, hh]

/-- Different normal forms are joined to one by a pin that is higher than theirs. -/
theorem branching_select {i : Nat} {low high : Equation} (hl : low.Normal) (hh : high.Normal)
    (hne : low ≠ high) (hltl : ∀ j ∈ low.usedInputs, j < i)
    (hlth : ∀ j ∈ high.usedInputs, j < i) : (select i low high).Branching := by
  obtain ⟨a, rfl⟩ | hl := hl
  · obtain ⟨b, rfl⟩ | hh := hh
    · have hb : b = !a := by
        rw [Bool.eq_not]
        rintro rfl
        exact hne rfl
      rw [hb, select_constants]
      exact .pin i a
    · rw [select_constant_low i a hh.constant?]
      cases a with
      | false => exact .and false hh hlth
      | true => exact .or true hh hlth
  · obtain ⟨b, rfl⟩ | hh := hh
    · rw [select_constant_high i b hl.constant?]
      cases b with
      | false => exact .and true hl hltl
      | true => exact .or false hl hltl
    · rw [select_of_none i hl.constant? hh.constant?]
      exact .both hl hh hne hltl hlth

/-- A normal form that is not a constant is joined from two different ones by its highest pin. -/
theorem Branching.exists_select {e : Equation} (he : e.Branching) :
    ∃ i low high, e = select i low high ∧ low.Normal ∧ high.Normal ∧ low ≠ high ∧
      (∀ j ∈ low.usedInputs, j < i) ∧ ∀ j ∈ high.usedInputs, j < i := by
  have hnormal (output : Bool) : (constant output).Normal := .inl ⟨output, rfl⟩
  have hne {x : Equation} (hx : x.Branching) (output : Bool) : constant output ≠ x := by
    rintro rfl
    cases hx
  have hlt (i : Nat) (output : Bool) : ∀ j ∈ (constant output).usedInputs, j < i := by simp
  cases he with
  | pin i inv =>
    exact ⟨i, constant inv, constant !inv, (select_constants i inv).symm, hnormal _, hnormal _,
      by simp, hlt i _, hlt i _⟩
  | @and i x inv hx hltx =>
    cases inv with
    | false =>
      exact ⟨i, constant false, x, (select_constant_low i false hx.constant?).symm, hnormal _,
        .inr hx, hne hx _, hlt i _, hltx⟩
    | true =>
      exact ⟨i, x, constant false, (select_constant_high i false hx.constant?).symm, .inr hx,
        hnormal _, (hne hx _).symm, hltx, hlt i _⟩
  | @or i x inv hx hltx =>
    cases inv with
    | false =>
      exact ⟨i, x, constant true, (select_constant_high i true hx.constant?).symm, .inr hx,
        hnormal _, (hne hx _).symm, hltx, hlt i _⟩
    | true =>
      exact ⟨i, constant true, x, (select_constant_low i true hx.constant?).symm, hnormal _,
        .inr hx, hne hx _, hlt i _, hltx⟩
  | @both i l h hl hh hlh hltl hlth =>
    exact ⟨i, l, h, (select_of_none i hl.constant? hh.constant?).symm, .inr hl, .inr hh, hlh, hltl,
      hlth⟩

/-! ## What is decoded is a normal form -/

/-- The value 0 is decoded to the constant `0`. -/
theorem ofRows_zero (k : Nat) : ofRows k 0 = constant false := by
  cases k <;> rfl

/-- The value whose rows are all 1 is decoded to the constant `1`. -/
theorem ofRows_rowMask (k : Nat) : ofRows k (rowMask k) = constant true := by
  cases k with
  | zero => rfl
  | succ k =>
    have hne : rowMask (k + 1) ≠ 0 := by
      have hbit : (rowMask (k + 1)).testBit 0 = true := by
        rw [testBit_rowMask, decide_eq_true (Nat.two_pow_pos _)]
      intro h
      rw [h, Nat.zero_testBit] at hbit
      cases hbit
    rw [ofRows, if_neg hne, if_pos rfl]

/-- Both halves of the value whose rows are all 1 are such values. -/
theorem halves_rowMask (k : Nat) :
    rowMask (k + 1) &&& rowMask k = rowMask k ∧
      rowMask (k + 1) >>> 2 ^ k &&& rowMask k = rowMask k := by
  have hdouble : 2 ^ (k + 1) = 2 ^ k + 2 ^ k := by rw [Nat.pow_succ, Nat.mul_two]
  constructor
  · apply Nat.eq_of_testBit_eq
    intro r
    rw [testBit_and_rowMask, testBit_rowMask, testBit_rowMask, ← Bool.decide_and, decide_eq_decide]
    omega
  · apply Nat.eq_of_testBit_eq
    intro r
    rw [testBit_and_rowMask, Nat.testBit_shiftRight, testBit_rowMask, testBit_rowMask,
      ← Bool.decide_and, decide_eq_decide]
    omega

/-- A value is decoded by its halves alone: the tests for a constant only spare the way down. -/
theorem ofRows_succ (k value : Nat) :
    ofRows (k + 1) value =
      if value &&& rowMask k = value >>> 2 ^ k &&& rowMask k then ofRows k (value &&& rowMask k)
      else select (k + 1) (ofRows k (value &&& rowMask k))
        (ofRows k (value >>> 2 ^ k &&& rowMask k)) := by
  obtain ⟨hlow, hhigh⟩ := halves_rowMask k
  by_cases hzero : value = 0
  · subst hzero
    rw [Nat.zero_shiftRight, Nat.zero_and, if_pos rfl, ofRows_zero, ofRows_zero]
  · by_cases hones : value = rowMask (k + 1)
    · subst hones
      rw [hlow, hhigh, if_pos rfl, ofRows_rowMask, ofRows_rowMask]
    · rw [ofRows, if_neg hzero, if_neg hones]
      rfl

/-- Different values are decoded to different equations. -/
theorem ofRows_injective {k v w : Nat} (hk : k ≤ maxRowPin) (hv : v < 2 ^ 2 ^ k)
    (hw : w < 2 ^ 2 ^ k) (h : ofRows k v = ofRows k w) : v = w := by
  apply Nat.eq_of_testBit_eq
  intro r
  rcases Nat.lt_or_ge r (2 ^ k) with hr | hr
  · have hv' := evaluate_ofRows hk hv r
    have hw' := evaluate_ofRows hk hw r
    rw [Nat.mod_eq_of_lt hr] at hv' hw'
    rw [← hv', ← hw', h]
  · have hle : 2 ^ 2 ^ k ≤ 2 ^ r := Nat.pow_le_pow_right (by decide) hr
    rw [Nat.testBit_lt_two_pow (Nat.lt_of_lt_of_le hv hle),
      Nat.testBit_lt_two_pow (Nat.lt_of_lt_of_le hw hle)]

/-- What decoding gives is a normal form. -/
theorem normal_ofRows {k : Nat} (hk : k ≤ maxRowPin) (value : Nat) : (ofRows k value).Normal := by
  induction k generalizing value with
  | zero => exact .inl ⟨_, rfl⟩
  | succ k ih =>
    have hbelow (v : Nat) : ∀ j ∈ (ofRows k v).usedInputs, j < k + 1 := fun j hj =>
      Nat.lt_succ_of_le (within_ofRows k v j hj).2
    rw [ofRows_succ]
    split
    · exact ih (by omega) _
    · next hne =>
      have hdiff : ofRows k (value &&& rowMask k) ≠ ofRows k (value >>> 2 ^ k &&& rowMask k) :=
        fun h => hne (ofRows_injective (by omega) (and_rowMask_lt _ k) (and_rowMask_lt _ k) h)
      exact .inr (branching_select (ih (by omega) _) (ih (by omega) _) hdiff (hbelow _) (hbelow _))

/-! ## A normal form is decoded from its table -/

/-- Inputs above the bound of an equation do not change its output. -/
theorem Within.evaluate_congr {e : Equation} {k x y : Nat} (h : e.Within k)
    (hxy : x % 2 ^ k = y % 2 ^ k) : e.evaluate x = e.evaluate y := by
  refine Equation.evaluate_congr fun i hi => ?_
  obtain ⟨h1, hk⟩ := h i hi
  have hlt : i - 1 < k := by omega
  have hx := Nat.testBit_mod_two_pow x k (i - 1)
  have hy := Nat.testBit_mod_two_pow y k (i - 1)
  rw [hxy, hy, decide_eq_true hlt, Bool.true_and, Bool.true_and] at hx
  rw [pinValue, pinValue, hx]

/-- A normal form over `k + 1` pins has two halves over `k` pins that are normal forms: itself twice
if it does not mention the last pin, and otherwise two different ones. -/
theorem Normal.exists_halves {k : Nat} {e : Equation} (he : e.Normal) (hin : e.Within (k + 1)) :
    ∃ low high, low.Normal ∧ high.Normal ∧ low.Within k ∧ high.Within k ∧
      e = if low = high then low else select (k + 1) low high := by
  by_cases hbelow : e.Within k
  · exact ⟨e, e, he, he, hbelow, hbelow, (if_pos rfl).symm⟩
  obtain ⟨output, rfl⟩ | he := he
  · exact absurd (within_constant k output) hbelow
  obtain ⟨i, low, high, rfl, hl, hh, hne, hltl, hlth⟩ := he.exists_select
  have hinl : ∀ j ∈ low.usedInputs, 1 ≤ j ∧ j < i := fun j hj =>
    ⟨(hin j (mem_usedInputs_select.mpr (.inr (.inl hj)))).1, hltl j hj⟩
  have hinh : ∀ j ∈ high.usedInputs, 1 ≤ j ∧ j < i := fun j hj =>
    ⟨(hin j (mem_usedInputs_select.mpr (.inr (.inr hj)))).1, hlth j hj⟩
  -- Its highest pin is the one that is not among the first `k`.
  have hi : i = k + 1 := by
    obtain ⟨hi1, hik⟩ := hin i (mem_usedInputs_select.mpr (.inl rfl))
    refine Nat.le_antisymm hik (Nat.lt_of_not_le fun hle => hbelow fun j hj => ?_)
    rcases mem_usedInputs_select.mp hj with rfl | hj | hj
    · exact ⟨hi1, hle⟩
    · have := hinl j hj
      omega
    · have := hinh j hj
      omega
  subst hi
  exact ⟨low, high, hl, hh, fun j hj => ⟨(hinl j hj).1, Nat.le_of_lt_succ (hinl j hj).2⟩,
    fun j hj => ⟨(hinh j hj).1, Nat.le_of_lt_succ (hinh j hj).2⟩, (if_neg hne).symm⟩

/-- A normal form is decoded from the value that lists its outputs. -/
theorem Normal.ofRows_eq {k value : Nat} {e : Equation} (he : e.Normal) (hin : e.Within k)
    (hk : k ≤ maxRowPin) (hv : value < 2 ^ 2 ^ k)
    (hrows : ∀ row, e.evaluate row = value.testBit (row % 2 ^ k)) : ofRows k value = e := by
  induction k generalizing e value with
  | zero =>
    -- Without pins there are only the constants.
    obtain ⟨output, rfl⟩ | he := he
    · have hv' : value = 0 ∨ value = 1 := by
        simp only [pow_zero, pow_one] at hv
        omega
      have hbit : output = value.testBit 0 := hrows 0
      rcases hv' with rfl | rfl <;> rw [hbit] <;> rfl
    · obtain ⟨i, low, high, rfl, -⟩ := he.exists_select
      have hi := hin i (mem_usedInputs_select.mpr (.inl rfl))
      omega
  | succ k ih =>
    have hk' : k ≤ maxRowPin := by omega
    obtain ⟨low, high, hl, hh, hinl, hinh, heq⟩ := he.exists_halves hin
    have hselect (row : Nat) :
        e.evaluate row = if row.testBit k then high.evaluate row else low.evaluate row := by
      rw [heq]
      split
      · next hsame => rw [hsame, ite_self]
      · rw [evaluate_select, pinValue_succ hk]
    -- The halves of the value list the outputs of the halves of the equation.
    have hlow : ofRows k (value &&& rowMask k) = low := by
      refine ih hl hinl hk' (and_rowMask_lt _ k) fun row => ?_
      obtain ⟨r, hbit, hmod⟩ := exists_row_half row k false
      have hr := hselect r
      rw [hrows, testBit_row_succ, hbit, if_neg Bool.false_ne_true, if_neg Bool.false_ne_true,
        hmod] at hr
      rw [hr, hinl.evaluate_congr hmod]
    have hhigh : ofRows k (value >>> 2 ^ k &&& rowMask k) = high := by
      refine ih hh hinh hk' (and_rowMask_lt _ k) fun row => ?_
      obtain ⟨r, hbit, hmod⟩ := exists_row_half row k true
      have hr := hselect r
      rw [hrows, testBit_row_succ, hbit, if_pos rfl, if_pos rfl, hmod] at hr
      rw [hr, hinh.evaluate_congr hmod]
    have hiff : value &&& rowMask k = value >>> 2 ^ k &&& rowMask k ↔ low = high := by
      rw [← hlow, ← hhigh]
      exact ⟨congrArg (ofRows k),
        ofRows_injective hk' (and_rowMask_lt _ k) (and_rowMask_lt (value >>> 2 ^ k) k)⟩
    rw [ofRows_succ, hlow, hhigh, heq]
    simp only [hiff]

/-- A normal form over the pins of a width is decoded from its table of that width. -/
theorem Normal.toEquation_toTable {e : Equation} (he : e.Normal) {w : Width}
    (hin : e.Within w.inputs) : (e.toTable w).toEquation = e := by
  refine he.ofRows_eq hin w.inputs_le_maxRowPin (e.toTable w).value_lt_two_pow fun row => ?_
  have hlt : row % 2 ^ w.inputs < w.rows := Nat.mod_lt _ (Nat.two_pow_pos _)
  have hbit : (e.toTable w).bit (row % 2 ^ w.inputs) = e.evaluate (row % 2 ^ w.inputs) :=
    bit_toTable_of_lt hlt
  rw [hin.evaluate_congr (Nat.mod_mod row (2 ^ w.inputs)).symm]
  exact hbit.symm

/-- The equation of a table is a normal form. -/
theorem normal_toEquation (t : TruthTable) : t.toEquation.Normal :=
  normal_ofRows t.width.inputs_le_maxRowPin t.value

/-- The equations of the tables of a width are the normal forms over its pins. -/
theorem exists_toEquation_eq_iff (w : Width) (e : Equation) :
    (∃ t : TruthTable, t.width = w ∧ t.toEquation = e) ↔ e.Normal ∧ e.Within w.inputs := by
  constructor
  · rintro ⟨t, rfl, rfl⟩
    exact ⟨normal_toEquation t, t.within_toEquation⟩
  · rintro ⟨he, hin⟩
    exact ⟨e.toTable w, rfl, he.toEquation_toTable hin⟩

/-! ## Canonical equations -/

/-- The equation that encoding at a count of inputs and decoding again makes of an equation. -/
def canonicalAt (e : Equation) (count : Nat) : Except LutError Equation :=
  (e.toTableAt count).map TruthTable.toEquation

/-- An equation over `A1` to `A6` has a canonical equation at every width. -/
theorem Within.canonicalAt {e : Equation} (h : e.Within maxInputs) (w : Width) :
    e.canonicalAt w.inputs = .ok (e.toTable w).toEquation := by
  rw [Equation.canonicalAt, h.toTableAt, Width.ofNat_inputs]
  rfl

/-- Only an equation over `A1` to `A6` has a canonical equation. -/
theorem within_of_canonicalAt {e d : Equation} {count : Nat} (h : e.canonicalAt count = .ok d) :
    e.Within maxInputs := by
  obtain ⟨t, ht, -⟩ := map_eq_ok_iff.mp h
  obtain ⟨w, -, ht⟩ := bind_eq_ok_iff.mp ht
  obtain ⟨e', he', -⟩ := bind_eq_ok_iff.mp ht
  exact (of_checked he').2

/-- Encoding an equation at a width and decoding its table gives the equation back exactly if it is
a normal form over the pins of the width, and these are the equations that the tables of the width
are decoded to. Every equation over `A1` to `A6`, and no other, has a canonical equation, and making
an equation canonical twice is the same as making it canonical once. -/
theorem canonicalAt_eq_self_iff (w : Width) (e : Equation) :
    (e.canonicalAt w.inputs = .ok e ↔ e.Normal ∧ e.Within w.inputs) ∧
      ((∃ t : TruthTable, t.width = w ∧ t.toEquation = e) ↔ e.Normal ∧ e.Within w.inputs) ∧
      ((∃ d, e.canonicalAt w.inputs = .ok d) ↔ e.Within maxInputs) ∧
      (e.canonicalAt w.inputs >>= fun d => d.canonicalAt w.inputs) = e.canonicalAt w.inputs := by
  have himage := exists_toEquation_eq_iff w
  refine ⟨⟨fun h => ?_, fun h => ?_⟩, himage e, ⟨?_, fun h => ⟨_, h.canonicalAt w⟩⟩, ?_⟩
  · have hok := (within_of_canonicalAt h).canonicalAt w
    rw [h] at hok
    exact (himage e).mp ⟨e.toTable w, rfl, (Except.ok.inj hok).symm⟩
  · obtain ⟨he, hin⟩ := h
    rw [(hin.mono w.le_max).canonicalAt w, he.toEquation_toTable hin]
  · rintro ⟨d, h⟩
    exact within_of_canonicalAt h
  · cases h : e.canonicalAt w.inputs with
    | error refusal => rfl
    | ok d =>
      rw [(within_of_canonicalAt h).canonicalAt w] at h
      obtain ⟨hd, hin⟩ := (himage d).mp ⟨e.toTable w, rfl, Except.ok.inj h⟩
      change d.canonicalAt w.inputs = .ok d
      rw [(hin.mono w.le_max).canonicalAt w, hd.toEquation_toTable hin]

/-! ## Renumbering -/

/-- Two equations that are renumbered to one are the same, if the renumbering keeps the order of
their pins. -/
theorem renumber_injOn {d e : Equation} {f : Nat → Nat} {s : Set Nat} (hf : StrictMonoOn f s)
    (hd : ∀ i ∈ d.usedInputs, i ∈ s) (he : ∀ i ∈ e.usedInputs, i ∈ s)
    (h : d.renumber f = e.renumber f) : d = e := by
  induction d generalizing e with
  | constant output =>
    cases e with
    | constant output' => exact h
    | input index' inverted' => cases h
    | binary op' left' right' => cases h
  | input index inverted =>
    cases e with
    | constant output' => cases h
    | input index' inverted' =>
      obtain ⟨hindex, rfl⟩ := Equation.input.inj h
      have hi := hd index (mem_usedInputs_input.mpr rfl)
      have hi' := he index' (mem_usedInputs_input.mpr rfl)
      rw [hf.injOn hi hi' hindex]
    | binary op' left' right' => cases h
  | binary op left right ihl ihr =>
    cases e with
    | constant output' => cases h
    | input index' inverted' => cases h
    | binary op' left' right' =>
      obtain ⟨hdl, hdr⟩ := forall_mem_usedInputs_binary.mp hd
      obtain ⟨hel, her⟩ := forall_mem_usedInputs_binary.mp he
      obtain ⟨rfl, hl, hr⟩ := Equation.binary.inj h
      rw [ihl hdl hel hl, ihr hdr her hr]

/-- Pins below another one stay below it under a renumbering that keeps the order. -/
theorem lt_of_mem_usedInputs_renumber {e : Equation} {f : Nat → Nat} {s : Set Nat} {i : Nat}
    (hf : StrictMonoOn f s) (hi : i ∈ s) (he : ∀ j ∈ e.usedInputs, j ∈ s)
    (hlt : ∀ j ∈ e.usedInputs, j < i) : ∀ j ∈ (e.renumber f).usedInputs, j < f i := by
  intro j hj
  obtain ⟨m, hm, rfl⟩ := mem_usedInputs_renumber.mp hj
  exact hf (he m hm) hi (hlt m hm)

/-- A renumbering that keeps the order of the pins keeps branching normal forms. -/
theorem Branching.renumber {e : Equation} {f : Nat → Nat} {s : Set Nat} (hf : StrictMonoOn f s)
    (he : e.Branching) (hs : ∀ i ∈ e.usedInputs, i ∈ s) : (e.renumber f).Branching := by
  have hpin {i : Nat} {inv : Bool} (h : ∀ j ∈ (input i inv).usedInputs, j ∈ s) : i ∈ s :=
    h i (mem_usedInputs_input.mpr rfl)
  induction he with
  | pin i inv => exact .pin (f i) inv
  | @and i x inv hx hlt ih =>
    obtain ⟨hi, hxs⟩ := forall_mem_usedInputs_binary.mp hs
    exact .and inv (ih hxs) (lt_of_mem_usedInputs_renumber hf (hpin hi) hxs hlt)
  | @or i x inv hx hlt ih =>
    obtain ⟨hi, hxs⟩ := forall_mem_usedInputs_binary.mp hs
    exact .or inv (ih hxs) (lt_of_mem_usedInputs_renumber hf (hpin hi) hxs hlt)
  | @both i l h hl hh hne hltl hlth ihl ihh =>
    obtain ⟨hleft, hright⟩ := forall_mem_usedInputs_binary.mp hs
    obtain ⟨hi, hls⟩ := forall_mem_usedInputs_binary.mp hleft
    obtain ⟨-, hhs⟩ := forall_mem_usedInputs_binary.mp hright
    have hne' : l.renumber f ≠ h.renumber f := fun heq => hne (renumber_injOn hf hls hhs heq)
    exact .both (ihl hls) (ihh hhs) hne' (lt_of_mem_usedInputs_renumber hf (hpin hi) hls hltl)
      (lt_of_mem_usedInputs_renumber hf (hpin hi) hhs hlth)

/-- A renumbering that keeps the order of the pins keeps normal forms. -/
theorem Normal.renumber {e : Equation} {f : Nat → Nat} (he : e.Normal)
    (hf : StrictMonoOn f {i | i ∈ e.usedInputs}) : (e.renumber f).Normal := by
  obtain ⟨output, rfl⟩ | he := he
  · exact .inl ⟨output, rfl⟩
  · exact .inr (he.renumber hf fun i hi => hi)

end Equation

end LutLogic
