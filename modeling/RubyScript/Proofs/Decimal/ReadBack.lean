import Mathlib.Data.List.TakeDrop
import RubyScript.Decimal.Reader
import RubyScript.Decimal.Shortest
import RubyScript.Proofs.Decimal.Rounding

/-!
# Decimal texts read back

Every finite number is read back from its text, in every layout. The text of a number is a
numeral: digits with perhaps a point and an exponent. A numeral denotes a decimal fraction, the
one of a layout denotes the shortest fraction of the number, and that fraction was chosen
because it reads back.
-/

namespace RubyScript.Text

/-- Whether a text is empty or starts with a character outside a class. -/
def Leaves (p : Char → Bool) (rest : List Char) : Prop := ∀ c ∈ rest.head?, p c = false

theorem leaves_nil (p : Char → Bool) : Leaves p [] := by simp [Leaves]

theorem leaves_cons {p : Char → Bool} {c : Char} {rest : List Char} (h : p c = false) :
    Leaves p (c :: rest) := by simpa [Leaves] using h

theorem takeWhile_run {p : Char → Bool} {run rest : List Char} (hrun : ∀ c ∈ run, p c = true)
    (hrest : Leaves p rest) : (run ++ rest).takeWhile p = run := by
  rw [List.takeWhile_append_of_pos hrun]
  cases rest with
  | nil => simp
  | cons c rest => simp [hrest c rfl]

theorem dropWhile_run {p : Char → Bool} {run rest : List Char} (hrun : ∀ c ∈ run, p c = true)
    (hrest : Leaves p rest) : (run ++ rest).dropWhile p = rest := by
  rw [List.dropWhile_append_of_pos hrun]
  cases rest with
  | nil => simp
  | cons c rest => simp [hrest c rfl]

theorem span_run {p : Char → Bool} {run rest : List Char} (hrun : ∀ c ∈ run, p c = true)
    (hrest : Leaves p rest) : (run ++ rest).span p = (run, rest) := by
  rw [List.span_eq_takeWhile_dropWhile, takeWhile_run hrun hrest, dropWhile_run hrun hrest]

end RubyScript.Text

namespace RubyScript.Decimal

/-! ## Runs of digits -/

theorem isDigit_eq (c : Char) : isDigit c = c.isDigit := by
  unfold isDigit Char.isDigit
  rfl

/-- What holds of the ten digits holds of every digit. -/
theorem of_isDigit {p : Char → Bool} (hp : ∀ d < 10, p (Char.ofNat (48 + d)) = true) {c : Char}
    (hc : isDigit c = true) : p c = true := by
  rw [isDigit_eq, Char.isDigit_iff_toNat] at hc
  have hlow : 48 ≤ c.toNat := hc.1
  have hhigh : c.toNat ≤ 57 := hc.2
  have h := hp (c.toNat - 48) (by omega)
  rwa [show 48 + (c.toNat - 48) = c.toNat by omega, Char.ofNat_toNat] at h

theorem ofDigits_eq (cs : List Char) : ofDigits cs = Nat.ofDigitChars 10 cs 0 := by
  rw [Nat.ofDigitChars_eq_foldl]
  rfl

theorem ofDigits_append (cs ds : List Char) :
    ofDigits (cs ++ ds) = ofDigits cs * 10 ^ ds.length + ofDigits ds := by
  simp only [ofDigits_eq, Nat.ofDigitChars_append]
  rw [Nat.ofDigitChars_eq_ofDigitChars_zero, Nat.mul_comm]

theorem ofDigits_zeros (n : Nat) : ofDigits (List.replicate n '0') = 0 := by
  rw [ofDigits_eq, Nat.ofDigitChars_replicate_zero, Nat.mul_zero]

theorem ofDigits_toDigits (n : Nat) : ofDigits (Nat.toDigits 10 n) = n := by
  rw [ofDigits_eq, Nat.ofDigitChars_ten_toDigits]

theorem isDigit_of_mem_toDigits {n : Nat} {c : Char} (hc : c ∈ Nat.toDigits 10 n) :
    isDigit c = true := by
  rw [isDigit_eq]
  exact Nat.isDigit_of_mem_toDigits (by decide) (by decide) hc

theorem natural?_toDigits (n : Nat) : natural? (Nat.toDigits 10 n) = some n := by
  have hall : (Nat.toDigits 10 n).all isDigit = true :=
    List.all_eq_true.2 fun _ => isDigit_of_mem_toDigits
  unfold natural?
  rw [if_pos ⟨Nat.toDigits_ne_nil, hall⟩, ofDigits_toDigits]

/-- Taking the zeros off the end of a number's digits is dividing by a power of ten. -/
theorem toDigits_eq_significant (n : Nat) :
    ∃ k, Nat.toDigits 10 n = significant n ++ List.replicate k '0' := by
  let zeros := (Nat.toDigits 10 n).reverse.takeWhile (· == '0')
  have hzeros : zeros = List.replicate zeros.length '0' := by
    rw [List.eq_replicate_iff]
    refine ⟨rfl, fun c hc => ?_⟩
    have hall : zeros.all (· == '0') = true := List.all_takeWhile
    simpa using List.all_eq_true.1 hall c hc
  refine ⟨zeros.length, ?_⟩
  calc Nat.toDigits 10 n
      = (zeros ++ (Nat.toDigits 10 n).reverse.dropWhile (· == '0')).reverse := by
        rw [List.takeWhile_append_dropWhile, List.reverse_reverse]
    _ = significant n ++ zeros.reverse := List.reverse_append
    _ = significant n ++ List.replicate zeros.length '0' := by rw [hzeros]; simp

theorem isDigit_of_mem_significant {n : Nat} {c : Char} (hc : c ∈ significant n) :
    isDigit c = true := by
  obtain ⟨k, hk⟩ := toDigits_eq_significant n
  exact isDigit_of_mem_toDigits (n := n) (by simp [hk, hc])

/-! ## Numerals -/

def signText (negative : Bool) : List Char := if negative then ['-'] else []

theorem splitSign_signText (negative : Bool) {c : Char} {cs : List Char} (hc : isDigit c = true) :
    splitSign (signText negative ++ c :: cs) = (negative, c :: cs) := by
  have hminus : c ≠ '-' := by rintro rfl; simp [isDigit] at hc
  have hplus : c ≠ '+' := by rintro rfl; simp [isDigit] at hc
  cases negative with
  | true => rfl
  | false =>
      simp only [signText, Bool.false_eq_true, if_false, List.nil_append]
      unfold splitSign
      split
      · simp_all
      · simp_all
      · rfl

/-- Texts of the part of a numeral behind its whole digits, with the digits in it. -/
inductive IsFraction : List Char → List Char → Prop
  | absent : IsFraction [] []
  | present (ds : List Char) (hds : ∀ c ∈ ds, isDigit c = true) : IsFraction ('.' :: ds) ds

/-- Texts of the exponent of a numeral, with its value. -/
inductive IsExponent : List Char → Int → Prop
  | absent : IsExponent [] 0
  | present (cs : List Char) (e : Int) (he : exponent? cs = some e) : IsExponent ('e' :: cs) e

theorem IsExponent.leaves {text : List Char} {e : Int} (h : IsExponent text e) :
    Text.Leaves isDigit text := by
  cases h with
  | absent => exact Text.leaves_nil _
  | present cs => exact Text.leaves_cons (by decide)

theorem float?_numeral (negative : Bool) {whole point fraction tail : List Char} {e : Int}
    (hwhole : ∀ c ∈ whole, isDigit c = true) (hne : whole ≠ []) (hpoint : IsFraction point fraction)
    (htail : IsExponent tail e) :
    float? (signText negative ++ (whole ++ (point ++ tail))) =
      some (Binary64.ofDecimal negative (ofDigits (whole ++ fraction)) (e - fraction.length)) := by
  obtain ⟨c, cs, rfl⟩ := List.exists_cons_of_ne_nil hne
  have hsign : splitSign (signText negative ++ c :: (cs ++ (point ++ tail))) = _ :=
    splitSign_signText negative (hwhole c (by simp))
  have hspan : (c :: cs ++ (point ++ tail)).span isDigit = (c :: cs, point ++ tail) := by
    apply Text.span_run hwhole
    cases hpoint with
    | absent => exact htail.leaves
    | present ds hds => exact Text.leaves_cons (by decide)
  unfold float?
  rw [List.cons_append, hsign]
  simp only
  rw [← List.cons_append, hspan]
  simp only
  cases hpoint with
  | absent =>
      cases htail with
      | absent => simp
      | present cs e he => simp [he]
  | present ds hds =>
      rw [List.cons_append]
      simp only [Text.span_run hds htail.leaves]
      cases htail with
      | absent => simp
      | present cs e he => simp [he]

theorem exponent?_text (weight : Int) (signed : Bool) :
    exponent? ((if weight < 0 then ['-'] else if signed then ['+'] else []) ++
      Nat.toDigits 10 weight.natAbs) = some weight := by
  have hsign : splitSign ((if weight < 0 then ['-'] else if signed then ['+'] else []) ++
      Nat.toDigits 10 weight.natAbs) = (decide (weight < 0), Nat.toDigits 10 weight.natAbs) := by
    cases hcs : Nat.toDigits 10 weight.natAbs with
    | nil => exact absurd hcs Nat.toDigits_ne_nil
    | cons c cs =>
        have hc : isDigit c = true := isDigit_of_mem_toDigits (n := weight.natAbs) (by simp [hcs])
        by_cases hw : weight < 0
        · simp [hw, splitSign]
        · cases signed with
          | true => simp [hw, splitSign]
          | false => simpa [hw, signText] using splitSign_signText false hc
  unfold exponent?
  rw [hsign]
  simp only [natural?_toDigits]
  change some (if decide (weight < 0) = true then -(weight.natAbs : Int) else weight.natAbs) = _
  by_cases hw : weight < 0
  · simp only [hw, decide_true, if_true, Option.some.injEq]
    omega
  · simp only [hw, decide_false, Bool.false_eq_true, if_false, Option.some.injEq]
    omega

theorem isDigit_of_mem_zeros {n : Nat} {c : Char} (hc : c ∈ List.replicate n '0') :
    isDigit c = true := by
  rw [List.eq_of_mem_replicate hc]
  decide

theorem isDigit_of_mem_append {cs ds : List Char} (hcs : ∀ c ∈ cs, isDigit c = true)
    (hds : ∀ c ∈ ds, isDigit c = true) : ∀ c ∈ cs ++ ds, isDigit c = true := by
  intro c hc
  rcases List.mem_append.1 hc with hc | hc
  · exact hcs c hc
  · exact hds c hc

section Arrangements

variable (negative : Bool) {ds : List Char} (hds : ∀ c ∈ ds, isDigit c = true)

include hds

/-- Digits behind the point, after some zeros. -/
theorem float?_below_one (zeros : Nat) :
    float? (signText negative ++ '0' :: '.' :: (List.replicate zeros '0' ++ ds)) =
      some (Binary64.ofDecimal negative (ofDigits ds) (-(zeros + ds.length : Nat))) := by
  have hwhole : ∀ c ∈ ['0'], isDigit c = true := fun c => isDigit_of_mem_zeros (n := 1)
  have hfraction := isDigit_of_mem_append (fun c => isDigit_of_mem_zeros (n := zeros)) hds
  have h := float?_numeral negative hwhole (by simp) (.present _ hfraction) .absent
  have hvalue : ofDigits (['0'] ++ (List.replicate zeros '0' ++ ds)) = ofDigits ds := by
    rw [← List.append_assoc, ofDigits_append]
    have hz : ofDigits (List.replicate (zeros + 1) '0') = 0 := ofDigits_zeros _
    rw [List.replicate_succ] at hz
    rw [show (['0'] ++ List.replicate zeros '0') = '0' :: List.replicate zeros '0' from rfl, hz]
    simp
  rw [hvalue] at h
  simpa using h

/-- Digits before the point that reach it only with some zeros. -/
theorem float?_integral (hne : ofDigits ds ≠ 0) (zeros : Nat) :
    float? (signText negative ++ (ds ++ List.replicate zeros '0' ++ ['.', '0'])) =
      some (Binary64.ofDecimal negative (ofDigits ds) zeros) := by
  have hwhole := isDigit_of_mem_append hds (fun c => isDigit_of_mem_zeros (n := zeros))
  have hnil : ds ++ List.replicate zeros '0' ≠ [] := by
    intro hnil
    exact hne (by rw [(List.append_eq_nil_iff.1 hnil).1]; rfl)
  have h := float?_numeral negative hwhole hnil
    (.present ['0'] (fun c => isDigit_of_mem_zeros (n := 1))) .absent
  have hvalue : ofDigits (ds ++ List.replicate zeros '0' ++ ['0']) =
      ofDigits ds * 10 ^ (zeros + 1) := by
    have hz := ofDigits_zeros (zeros + 1)
    rw [List.append_assoc, ← List.replicate_succ', ofDigits_append, hz]
    simp
  rw [hvalue, Binary64.ofDecimal_mul_pow _ _ _ hne] at h
  have he : (0 : Int) - (['0'] : List Char).length + (zeros + 1 : Nat) = zeros := by
    rw [List.length_singleton]
    omega
  rw [he] at h
  simpa using h

/-- Digits with the point between them. -/
theorem float?_mixed {whole : Nat} (hpos : 0 < whole) (hlt : whole < ds.length) :
    float? (signText negative ++ (ds.take whole ++ '.' :: ds.drop whole)) =
      some (Binary64.ofDecimal negative (ofDigits ds) (whole - ds.length)) := by
  have hne : ds.take whole ≠ [] := by
    intro hnil
    have hlength : min whole ds.length = 0 := by rw [← List.length_take, hnil]; rfl
    omega
  have h := float?_numeral negative (fun c hc => hds c (List.mem_of_mem_take hc)) hne
    (.present (ds.drop whole) (fun c hc => hds c (List.mem_of_mem_drop hc))) .absent
  have he : (0 : Int) - ((ds.drop whole).length : Nat) = whole - ds.length := by
    rw [List.length_drop]
    omega
  rw [List.take_append_drop, he] at h
  simpa using h

end Arrangements

/-- One digit before the point, and an exponent. -/
theorem float?_scientific (negative : Bool) {d : Char} {point rest tail : List Char} {e : Int}
    (hd : isDigit d = true) (hpoint : IsFraction point rest) (htail : IsExponent tail e) :
    float? (signText negative ++ (d :: point ++ tail)) =
      some (Binary64.ofDecimal negative (ofDigits (d :: rest)) (e + 1 - (d :: rest).length)) := by
  have hwhole : ∀ c ∈ [d], isDigit c = true := by
    intro c hc
    rwa [List.mem_singleton.1 hc]
  have h := float?_numeral negative hwhole (by simp) hpoint htail
  have he : e - (rest.length : Int) = e + 1 - ((d :: rest).length : Nat) := by
    rw [List.length_cons]
    omega
  rw [he] at h
  exact h

/-- What a layout makes of the digits `ds` denotes these digits with the first of them at its
weight. -/
theorem float?_arrange (layout : Layout) (negative : Bool) {ds : List Char} (weight : Int)
    (hds : ∀ c ∈ ds, isDigit c = true) (hne : ofDigits ds ≠ 0) :
    float? (signText negative ++ layout.arrange ds weight) =
      some (Binary64.ofDecimal negative (ofDigits ds) (weight + 1 - ds.length)) := by
  unfold Layout.arrange
  by_cases hpositional : layout.least ≤ weight ∧ weight < layout.bound
  · rw [if_pos hpositional]
    by_cases hsmall : weight < 0
    · have h := float?_below_one negative hds (-weight - 1).toNat
      have he : (-((-weight - 1).toNat + ds.length : Nat) : Int) = weight + 1 - ds.length := by
        omega
      rw [he] at h
      rw [if_pos hsmall]
      exact h
    · rw [if_neg hsmall]
      by_cases hlong : (weight + 1).toNat < ds.length
      · have h := float?_mixed negative hds (show 0 < (weight + 1).toNat by omega) hlong
        have hzeros : (weight + 1 - ds.length).toNat = 0 := by omega
        have hafter : ds.drop (weight + 1).toNat ≠ [] := by simp; omega
        have he : (((weight + 1).toNat : Int) - ds.length) = weight + 1 - ds.length := by omega
        rw [he] at h
        simp only [if_neg hafter, hzeros, List.replicate_zero, List.append_nil]
        exact h
      · have h := float?_integral negative hds hne (weight + 1 - ds.length).toNat
        have hafter : ds.drop (weight + 1).toNat = [] := by simp; omega
        have htake : ds.take (weight + 1).toNat = ds := List.take_of_length_le (by omega)
        have he : ((weight + 1 - ds.length).toNat : Int) = weight + 1 - ds.length := by omega
        rw [he] at h
        simp only [hafter, htake, if_true]
        exact h
  · rw [if_neg hpositional]
    have htail := IsExponent.present _ _ (exponent?_text weight layout.signed)
    simp only [List.append_assoc, List.cons_append]
    cases ds with
    | nil => exact absurd rfl hne
    | cons d rest =>
        have hd : isDigit d = true := hds d (by simp)
        cases rest with
        | nil => exact float?_scientific negative hd .absent htail
        | cons r rest =>
            have hrest : ∀ c ∈ r :: rest, isDigit c = true :=
              fun c hc => hds c (List.mem_cons_of_mem d hc)
            exact float?_scientific negative hd (.present _ hrest) htail

/-! ## The text of a number -/

theorem zero_magnitudeBits (negative : Bool) : (Binary64.zero negative).magnitudeBits = 0 := by
  cases negative <;> decide

theorem onGrid_readsAs {tie : Tie} {x : Binary64} {exponent : Int} {d : Decimal}
    (h : onGrid tie x exponent = some d) : readsAs x d = true := by
  unfold onGrid at h
  simp only at h
  split at h
  · split at h <;> (cases h; assumption)
  · cases h; assumption
  · cases h; assumption
  · cases h

theorem search_readsAs (tie : Tie) {x : Binary64} (hx : x.isFinite = true) (hz : x.isZero = false)
    (point : Int) (fuel n : Nat) : readsAs x (search tie x point fuel n) = true := by
  induction fuel generalizing n with
  | zero => exact decide_eq_true (Binary64.ofDecimal_exact hx hz)
  | succ fuel ih =>
      unfold search
      cases hd : onGrid tie x (point - n) with
      | some d => exact onGrid_readsAs hd
      | none => exact ih (n + 1)

theorem ofDecimal_shortest (tie : Tie) {x : Binary64} (hx : x.isFinite = true)
    (hz : x.isZero = false) :
    Binary64.ofDecimal x.isNegative (shortest tie x).digits (shortest tie x).exponent = x :=
  of_decide_eq_true (search_readsAs tie hx hz _ 17 1)

theorem shortest_digits_ne_zero (tie : Tie) {x : Binary64} (hx : x.isFinite = true)
    (hz : x.isZero = false) : (shortest tie x).digits ≠ 0 := by
  intro h
  have hread := ofDecimal_shortest tie hx hz
  rw [h] at hread
  have hbits : x.magnitudeBits = 0 := by
    rw [← hread]
    exact zero_magnitudeBits x.isNegative
  simp [Binary64.isZero, hbits] at hz

/-- Every finite number is read back from its text. -/
theorem float?_write (layout : Layout) {x : Binary64} (hx : x.isFinite = true) :
    float? (layout.write x).toList = some x := by
  unfold Layout.write
  rw [String.toList_ofList]
  change float? (signText x.isNegative ++ _) = _
  cases hz : x.isZero with
  | true =>
      have hbits : x.magnitudeBits = 0 := by simpa [Binary64.isZero] using hz
      have hzero : Binary64.ofDecimal x.isNegative (ofDigits []) (-1) = x := by
        have hx := Binary64.ofMagnitudeBits_magnitudeBits x
        rw [hbits] at hx
        exact hx
      rw [if_pos rfl]
      exact (float?_below_one x.isNegative (List.forall_mem_nil _) 1).trans (congrArg some hzero)
  | false =>
      have hne := shortest_digits_ne_zero layout.tie hx hz
      have hread := ofDecimal_shortest layout.tie hx hz
      generalize shortest layout.tie x = d at hne hread
      obtain ⟨k, hk⟩ := toDigits_eq_significant d.digits
      have hds : ∀ c ∈ significant d.digits, isDigit c = true := fun _ => isDigit_of_mem_significant
      have hvalue : ofDigits (significant d.digits) * 10 ^ k = d.digits := by
        have h := ofDigits_toDigits d.digits
        rw [hk, ofDigits_append, ofDigits_zeros] at h
        simpa using h
      have hsignificant : ofDigits (significant d.digits) ≠ 0 := by
        intro h
        rw [h, Nat.zero_mul] at hvalue
        exact hne hvalue.symm
      have hweight : d.exponent + width d.digits - 1 + 1 - (significant d.digits).length =
          d.exponent + k := by
        have hwidth : width d.digits = (significant d.digits).length + k := by
          unfold width
          rw [if_neg hne, hk, List.length_append, List.length_replicate]
        omega
      have h := float?_arrange layout x.isNegative (d.exponent + width d.digits - 1) hds
        hsignificant
      rw [hweight, ← Binary64.ofDecimal_mul_pow _ _ _ hsignificant, hvalue, hread] at h
      exact h

def isNumeralChar (c : Char) : Bool := isDigit c || ['-', '+', '.', 'e'].contains c

theorem isNumeralChar_of_isDigit {c : Char} (h : isDigit c = true) : isNumeralChar c = true := by
  simp [isNumeralChar, h]

theorem isNumeralChar_of_mem_arrange (layout : Layout) {ds : List Char} (weight : Int)
    (hds : ∀ c ∈ ds, isDigit c = true) :
    ∀ c ∈ layout.arrange ds weight, isNumeralChar c = true := by
  have hdigits : ∀ c ∈ ds, isNumeralChar c = true := fun c hc => isNumeralChar_of_isDigit (hds c hc)
  have hzeros : ∀ n, ∀ c ∈ List.replicate n '0', isNumeralChar c = true :=
    fun n c hc => isNumeralChar_of_isDigit (isDigit_of_mem_zeros hc)
  have hexponent : ∀ c ∈ Nat.toDigits 10 weight.natAbs, isNumeralChar c = true :=
    fun c hc => isNumeralChar_of_isDigit (isDigit_of_mem_toDigits hc)
  have hmarks : ∀ c ∈ ['0', '.', '-', '+', 'e'], isNumeralChar c = true :=
    List.all_eq_true.1 (by decide)
  intro c hc
  unfold Layout.arrange at hc
  simp only at hc
  split at hc
  · split at hc
    · grind
    · grind [List.mem_of_mem_take, List.mem_of_mem_drop]
  · grind

/-- A text of a number has a point or an exponent mark, by which it is told from an integer. -/
theorem marked_arrange (layout : Layout) (ds : List Char) (weight : Int) :
    '.' ∈ layout.arrange ds weight ∨ 'e' ∈ layout.arrange ds weight := by
  unfold Layout.arrange
  split
  · left
    split <;> simp
  · right
    simp

theorem isNumeralChar_of_mem_write (layout : Layout) (x : Binary64) :
    ∀ c ∈ (layout.write x).toList, isNumeralChar c = true := by
  have hsign : ∀ c ∈ signText x.isNegative, isNumeralChar c = true := by
    cases x.isNegative <;> exact List.all_eq_true.1 (by decide)
  have hzero : ∀ c ∈ "0.0".toList, isNumeralChar c = true := List.all_eq_true.1 (by decide)
  intro c hc
  unfold Layout.write at hc
  rw [String.toList_ofList] at hc
  rcases List.mem_append.1 hc with hc | hc
  · exact hsign c hc
  · split at hc
    · exact hzero c hc
    · exact isNumeralChar_of_mem_arrange layout _ (fun _ => isDigit_of_mem_significant) c hc

theorem marked_write (layout : Layout) (x : Binary64) :
    '.' ∈ (layout.write x).toList ∨ 'e' ∈ (layout.write x).toList := by
  unfold Layout.write
  simp only [String.toList_ofList, List.mem_append]
  cases x.isZero with
  | true => exact .inl (.inr (show '.' ∈ "0.0".toList by decide))
  | false => exact (marked_arrange layout _ _).imp .inr .inr

end RubyScript.Decimal
