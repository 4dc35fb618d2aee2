import RubyScript.Proofs.Emit.Parsing.Operand
import RubyScript.Proofs.Emit.Pattern

/-!
# Literals as phrases

The texts of numbers, strings, interpolated strings, arrays, hashes and patterns.
-/

namespace RubyScript

/-! ## Numerals -/

namespace Decimal

open Ecma (IsDecimal)

theorem head?_toDigits {n : Nat} (hn : n ≠ 0) : (Nat.toDigits 10 n).head? ≠ some '0' := by
  induction n using Nat.strongRecOn with
  | _ n ih =>
      by_cases hsmall : n < 10
      · have hdigits : ∀ d < 10, d ≠ 0 → Nat.digitChar d ≠ '0' := by decide
        rw [Nat.toDigits_of_lt_base hsmall]
        simpa using hdigits n hsmall hn
      · have hsplit : Nat.toDigits 10 n = Nat.toDigits 10 (n / 10) ++ Nat.toDigits 10 (n % 10) := by
          rw [Nat.toDigits_append_toDigits (by decide) (by omega) (Nat.mod_lt n (by decide)),
            Nat.div_add_mod]
        obtain ⟨c, cs, hc⟩ :=
          List.exists_cons_of_ne_nil (Nat.toDigits_ne_nil (n := n / 10) (b := 10))
        have hhead := ih (n / 10) (by omega) (by omega)
        rw [hsplit, hc]
        rwa [hc] at hhead

theorem head?_significant {n : Nat} (hn : n ≠ 0) : (significant n).head? ≠ some '0' := by
  obtain ⟨k, hk⟩ := toDigits_eq_significant n
  obtain ⟨c, cs, hc⟩ := List.exists_cons_of_ne_nil (significant_ne_nil hn)
  have hhead := head?_toDigits hn
  rw [hk, hc] at hhead
  rwa [hc]

/-- Digits that do not begin with a zero are arranged to a numeral with a point or an exponent. -/
theorem isDigit_of_mem_zero : ∀ c ∈ ['0'], isDigit c = true := List.forall_mem_singleton.mpr rfl

theorem isDecimal_arrange (layout : Layout) {ds : List Char} (weight : Int) (hne : ds ≠ [])
    (hds : ∀ c ∈ ds, isDigit c = true) (hhead : ds.head? ≠ some '0') :
    IsDecimal (layout.arrange ds weight) := by
  have hzeros : ∀ n, ∀ c ∈ List.replicate n '0', isDigit c = true := fun _ _ => isDigit_of_mem_zeros
  obtain ⟨d, rest, rfl⟩ := List.exists_cons_of_ne_nil hne
  have hnonzero : d ≠ '0' := by simpa using hhead
  rw [List.forall_mem_cons] at hds
  unfold Layout.arrange
  dsimp only
  split
  · split
    · have hfraction := isDigit_of_mem_append (hzeros (-weight - 1).toNat)
        (List.forall_mem_cons.mpr hds)
      have h : IsDecimal (['0'] ++
          (('.' :: (List.replicate (-weight - 1).toNat '0' ++ d :: rest)) ++ [])) :=
        .mk isDigit_of_mem_zero (by simp) (fun _ => rfl) (.present _ hfraction) .absent (by simp)
      simpa using h
    · obtain ⟨k, hk⟩ : ∃ k, (weight + 1).toNat = k + 1 := ⟨weight.toNat, by omega⟩
      have htake : ∀ c ∈ rest.take k, isDigit c = true :=
        fun c hc => hds.2 c (List.mem_of_mem_take hc)
      have hwhole := isDigit_of_mem_append htake (hzeros (weight + 1 - (d :: rest).length).toNat)
      generalize List.replicate (weight + 1 - (d :: rest).length).toNat '0' = zeros at hwhole ⊢
      have hfraction : ∀ c ∈ (if rest.drop k = [] then ['0'] else rest.drop k), isDigit c =
          true := by
        split
        · exact isDigit_of_mem_zero
        · exact fun c hc => hds.2 c (List.mem_of_mem_drop hc)
      have h : IsDecimal ((d :: (rest.take k ++ zeros)) ++
          (('.' :: (if rest.drop k = [] then ['0'] else rest.drop k)) ++ [])) :=
        .mk (List.forall_mem_cons.mpr ⟨hds.1, hwhole⟩) (by simp) (by simp [hnonzero])
          (.present _ hfraction) .absent (by simp)
      simpa [hk] using h
  · have htail := IsExponent.present _ _ (exponent?_text weight layout.signed)
    simp only [List.append_assoc, List.cons_append]
    have hfirst : ∀ c ∈ [d], isDigit c = true := List.forall_mem_singleton.mpr hds.1
    cases rest with
    | nil => exact .mk hfirst (by simp) (by simp [hnonzero]) .absent htail (by simp)
    | cons r rest =>
        exact .mk hfirst (by simp) (by simp [hnonzero]) (.present _ hds.2) htail (by simp)

end Decimal

namespace Emit

open Ecma (Parses IsDecimal IsStringBody isBindable)

section Texts

variable {isBody : String → Prop}

theorem isDecimal_write {x : Binary64} (hx : x.isFinite = true) (layout : Decimal.Layout) :
    ∃ body, layout.write x = (if x.isNegative then "-" else "") ++ body ∧
    IsDecimal body.toList := by
  unfold Decimal.Layout.write
  have hsign : String.ofList (if x.isNegative then ['-'] else []) =
      if x.isNegative then "-" else "" := by
    split <;> rfl
  dsimp only
  rw [String.ofList_append, hsign]
  refine ⟨_, rfl, ?_⟩
  rw [String.toList_ofList]
  split
  · have h : IsDecimal (['0'] ++ (['.', '0'] ++ [])) :=
      .mk Decimal.isDigit_of_mem_zero (by simp) (fun _ => rfl)
        (.present ['0'] Decimal.isDigit_of_mem_zero) .absent (by simp)
    exact h
  · rename_i hzero
    have hdigits := Decimal.shortest_digits_ne_zero layout.tie hx (by simpa using hzero)
    exact Decimal.isDecimal_arrange layout _ (Decimal.significant_ne_nil hdigits)
      (fun _ => Decimal.isDigit_of_mem_significant) (Decimal.head?_significant hdigits)

/-- A text inside a template begins with a brace only if the text itself does. -/
theorem templateText_cons (c : Char) (cs : List Char) :
    ∃ d ds, templateText (c :: cs) = d :: ds ∧ (d = '\x7b' → c = '\x7b') := by
  unfold templateText
  split
  all_goals first | contradiction | exact ⟨_, _, rfl, fun h => absurd h (by decide)⟩ | skip
  rename_i d rest _ _ _ _ _ h
  cases h
  exact ⟨_, _, rfl, id⟩

/-- What a text in a template begins with, together with what follows it. -/
theorem head?_templateText {cs rest : List Char} (hcs : ∀ ds, cs = '\x7b' :: ds → False)
    (hrest : cs = [] → rest.head? ≠ some '\x7b') :
    (templateText cs ++ rest).head? ≠ some '\x7b' := by
  cases cs with
  | nil => exact hrest rfl
  | cons c cs =>
      obtain ⟨d, ds, hwritten, hd⟩ := templateText_cons c cs
      rw [hwritten, List.cons_append, List.head?_cons]
      intro hhead
      exact hcs cs (by rw [hd (Option.some.inj hhead)])

end Texts

section Rules

variable {isBody : String → Prop} {emit : Emitter} {env : Env} {s t : Scope} {text : String}
    {children : List Child}
  {location : Option Location}

/-! ## Scalars -/

theorem fits_octal {n : Node} (h : Returns (octal n) env s text t) : Fits isBody env n text := by
  have hdigits (digits : String) (h : Returns (do
      unless isOctal digits do malformed "(octal digits)" n
      return (if ← isModern then "0o" else "0") ++ digits) env s text t) :
        Fits isBody env n text := by
    split at h
    · rename_i hoctal
      simp only [returns_bind, returns_isModern, returns_pure] at h
      obtain ⟨modern, _, -, rfl, -⟩ := h
      exact .primary (.octal (by cases modern <;> decide) hoctal)
    · simp at h
  unfold octal at h
  split at h
  · exact hdigits _ h
  · exact hdigits _ h
  · simp at h

/-! ## Interpolation -/

end Rules

end Emit

end RubyScript
