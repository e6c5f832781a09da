import Dispatch.Proofs.Json.Numbers

/-!
# Documents on one line

The compact style puts nothing between the parts of a document, and control characters in
texts are escaped.  So a document in that style has no control character in it, and stands on
one line, whatever the value holds.
-/

namespace Dispatch

/-- No control characters; those stand before the space. -/
def IsOneLine (cs : List Char) : Prop :=
  ∀ c ∈ cs, 0x20 ≤ c.toNat

@[simp] theorem isOneLine_nil : IsOneLine [] :=
  List.forall_mem_nil _

@[simp] theorem isOneLine_cons {c : Char} {cs : List Char} :
    IsOneLine (c :: cs) ↔ 0x20 ≤ c.toNat ∧ IsOneLine cs :=
  List.forall_mem_cons

@[simp] theorem isOneLine_append {cs ds : List Char} :
    IsOneLine (cs ++ ds) ↔ IsOneLine cs ∧ IsOneLine ds :=
  List.forall_mem_append

theorem IsOneLine.of_subset {cs ds : List Char} (h : IsOneLine ds) (hsubset : cs ⊆ ds) :
    IsOneLine cs :=
  fun c hc => h c (hsubset hc)

/-- A text on one line has no line end in it. -/
theorem IsOneLine.not_mem {cs : List Char} (h : IsOneLine cs) : '\n' ∉ cs :=
  fun hc => absurd (h '\n' hc) (by decide)

theorem isOneLine_toDigits (n : Nat) : IsOneLine (Nat.toDigits 10 n) := by
  intro c hc
  have hdigit := Nat.isDigit_of_mem_toDigits (by omega) (by omega) hc
  rw [Char.isDigit, Bool.and_eq_true, decide_eq_true_iff, decide_eq_true_iff] at hdigit
  exact Nat.le_trans (by decide) hdigit.1

theorem isOneLine_zeros (n : Nat) : IsOneLine (List.replicate n '0') := by
  intro c hc
  rw [List.eq_of_mem_replicate hc]
  decide

/-! ## Numbers -/

namespace Number

theorem isOneLine_exponentChars (exponent : Int) : IsOneLine (exponentChars exponent) := by
  cases exponent <;> simp [exponentChars, isOneLine_toDigits]

/-- Laying out digits adds nothing but zeros, a point and an exponent. -/
theorem isOneLine_layout {digits : List Char} (h : IsOneLine digits) (point : Int) :
    IsOneLine (layout digits point) := by
  have hexponent := isOneLine_exponentChars (point - 1)
  have htake := h.of_subset (List.take_subset point.toNat digits)
  have hdrop := h.of_subset (List.drop_subset point.toNat digits)
  rw [layout.eq_def]
  dsimp only
  split_ifs
  · simp [h, isOneLine_zeros]
  · simp [htake, hdrop]
  · simp [h, isOneLine_zeros]
  · split
    next => simpa [hexponent] using h
    next => simpa [hexponent] using h
    next => exact hexponent

theorem isOneLine_decimalChars (d : Decimal) : IsOneLine (decimalChars d) := by
  apply isOneLine_layout
  apply (isOneLine_toDigits d.digits).of_subset
  intro c hc
  rw [stripZeros, List.mem_reverse] at hc
  exact List.mem_reverse.mp ((List.dropWhile_sublist _).mem hc)

theorem isOneLine_magnitudeChars (m : Magnitude) : IsOneLine (magnitudeChars m) := by
  rw [magnitudeChars]
  by_cases hzero : m.units = 0
  · simp [hzero]
  · rw [if_neg hzero]
    exact isOneLine_decimalChars _

theorem isOneLine_chars (x : Number) : IsOneLine x.chars := by
  cases x with
  | nan =>
      change IsOneLine "NaN".toList
      simp
  | infinite negative =>
      cases negative with
      | true =>
          change IsOneLine "-Infinity".toList
          simp
      | false =>
          change IsOneLine "Infinity".toList
          simp
  | finite negative m =>
      have hm := isOneLine_magnitudeChars m
      rw [Json.chars_finite]
      cases negative && m.units != 0 with
      | true => simpa using hm
      | false => simpa using hm

end Number

namespace Json

/-! ## Texts -/

theorem le_toNat_digitChar : ∀ n < 16, 0x20 ≤ (Nat.digitChar n).toNat := by
  decide

/-- A control character is escaped. -/
theorem isOneLine_escapeChar (c : Char) : IsOneLine (escapeChar c) := by
  have hlow := le_toNat_digitChar (c.toNat % 16) (Nat.mod_lt _ (by omega))
  rw [escapeChar]
  split_ifs with _ _ _ _ _ _ _ hcontrol
  case neg => simpa using hcontrol
  all_goals simp [hlow]
  exact le_toNat_digitChar (c.toNat / 16) (by omega)

theorem isOneLine_escapePoint (part : Text.Point) : IsOneLine (escapePoint part) := by
  cases part with
  | char c => exact isOneLine_escapeChar c
  | lone unit =>
      have hunit := unit.toNat_lt
      have hdigit := fun n hn => le_toNat_digitChar n hn
      simp [escapePoint, hdigit, Nat.mod_lt, show unit.toNat / 4096 < 16 by omega]

theorem isOneLine_quotedChars (s : String) : IsOneLine (quotedChars s) := by
  have hbody : IsOneLine ((Text.points (textUnits s)).flatMap escapePoint) := by
    intro c hc
    obtain ⟨part, _, hc⟩ := List.mem_flatMap.mp hc
    exact isOneLine_escapePoint part c hc
  simp [quotedChars, hbody]

/-! ## Documents -/

theorem lineBreak_compact (depth : Nat) : Style.compact.lineBreak depth = [] :=
  rfl

theorem colon_compact : Style.compact.colon = [':'] :=
  rfl

mutual

/-- A compact document has no control characters in it. -/
theorem isOneLine_chars (depth : Nat) : ∀ v : Value, IsOneLine (chars .compact depth v)
  | .missing | .null | .atom _ => by simp [chars]
  | .bool true | .bool false => by simp [chars]
  | .number x => x.isOneLine_chars
  | .text s => isOneLine_quotedChars s
  | .list [] | .object _ [] => by simp [chars]
  | .list (item :: rest) => by
      have hitem := isOneLine_chars (depth + 1) item
      have hrest := isOneLine_itemsChars depth rest
      simp [chars, lineBreak_compact, hitem, hrest]
  | .object _ ((name, value) :: rest) => by
      have hvalue := isOneLine_chars (depth + 1) value
      have hrest := isOneLine_membersChars depth rest
      simp [chars, lineBreak_compact, colon_compact, isOneLine_quotedChars, hvalue, hrest]

theorem isOneLine_itemsChars (depth : Nat) :
    ∀ items : List Value, IsOneLine (itemsChars .compact depth items)
  | [] => by simp [itemsChars, lineBreak_compact]
  | item :: rest => by
      have hitem := isOneLine_chars (depth + 1) item
      have hrest := isOneLine_itemsChars depth rest
      simp [itemsChars, lineBreak_compact, hitem, hrest]

theorem isOneLine_membersChars (depth : Nat) :
    ∀ members : List (String × Value), IsOneLine (membersChars .compact depth members)
  | [] => by simp [membersChars, lineBreak_compact]
  | (name, value) :: rest => by
      have hvalue := isOneLine_chars (depth + 1) value
      have hrest := isOneLine_membersChars depth rest
      simp [membersChars, lineBreak_compact, colon_compact, isOneLine_quotedChars, hvalue, hrest]

end

end Json

end Dispatch
