import Stockroom.Json.Printer
import Stockroom.Json.Reader

/-! What is printed reads back as what it was. -/

namespace Stockroom.Json
set_option autoImplicit false

/-- Only the end, a comma or a bracket follows a printed value. -/
def Ends (rest : List Char) : Prop := ∀ c ∈ rest.head?, c = ',' ∨ c = ']' ∨ c = '\x7d'

theorem Ends.nil : Ends [] := nofun

theorem Ends.cons {c : Char} {rest : List Char} (h : c = ',' ∨ c = ']' ∨ c = '\x7d') :
    Ends (c :: rest) := by
  intro d hd
  obtain rfl := Option.some.inj hd
  exact h

theorem skipBlanks_cons {c : Char} {rest : List Char} (h : isBlank c = false) :
    skipBlanks (c :: rest) = c :: rest := by
  rw [skipBlanks, List.dropWhile_cons, if_neg]
  rw [h]
  exact Bool.false_ne_true

/-! ### Numbers -/

theorem isDigit_of_mem_toDigits {n : Nat} {c : Char} (h : c ∈ Nat.toDigits 10 n) :
    isDigit c = true :=
  Nat.isDigit_of_mem_toDigits (by decide) (by decide) h

theorem ofDigits_toDigits (n : Nat) : ofDigits (Nat.toDigits 10 n) = n := by
  have h := Nat.ofDigitChars_ten_toDigits (n := n)
  rw [Nat.ofDigitChars_eq_foldl] at h
  exact h

theorem digitChar_ne_zero : ∀ n < 10, n ≠ 0 → Nat.digitChar n ≠ '0' := by decide

/-- No number but zero begins with a zero. -/
theorem head_toDigits {n : Nat} (hn : n ≠ 0) : ∀ c ∈ (Nat.toDigits 10 n).head?, c ≠ '0' := by
  induction n using Nat.strongRecOn with
  | ind n ih =>
    intro c hc
    rw [Nat.toDigits_eq_if (by decide)] at hc
    split at hc
    · rename_i hlt
      obtain rfl := Option.some.inj hc
      exact digitChar_ne_zero n hlt hn
    · rename_i hge
      cases hdigits : Nat.toDigits 10 (n / 10) with
      | nil => exact absurd hdigits Nat.toDigits_ne_nil
      | cons d ds =>
        rw [hdigits] at hc
        apply ih (n / 10) (by omega) (by omega) c
        rw [hdigits]
        exact hc

theorem Ends.not_digit {rest : List Char} (h : Ends rest) :
    ∀ c ∈ rest.head?, isDigit c = false := by
  intro c hc
  rcases h c hc with rfl | rfl | rfl <;> rfl

theorem takeWhile_isDigit {rest : List Char} (h : Ends rest) : rest.takeWhile isDigit = [] := by
  cases rest with
  | nil => rfl
  | cons c rest =>
    rw [List.takeWhile_cons, h.not_digit c rfl]
    rfl

theorem dropWhile_isDigit {rest : List Char} (h : Ends rest) : rest.dropWhile isDigit = rest := by
  cases rest with
  | nil => rfl
  | cons c rest =>
    rw [List.dropWhile_cons, h.not_digit c rfl]
    rfl

theorem readNat_toDigits (n : Nat) {rest : List Char} (h : Ends rest) :
    readNat (Nat.toDigits 10 n ++ rest) = some (n, rest) := by
  by_cases hn : n = 0
  · rw [hn, Nat.toDigits_zero]
    rfl
  have hdigits : ∀ c ∈ Nat.toDigits 10 n, isDigit c = true := fun c => isDigit_of_mem_toDigits
  have htake : (Nat.toDigits 10 n ++ rest).takeWhile isDigit = Nat.toDigits 10 n := by
    rw [List.takeWhile_append_of_pos hdigits, takeWhile_isDigit h, List.append_nil]
  have hdrop : (Nat.toDigits 10 n ++ rest).dropWhile isDigit = rest := by
    rw [List.dropWhile_append_of_pos hdigits, dropWhile_isDigit h]
  rw [readNat]
  · rw [htake, hdrop]
    split
    · rename_i hnil
      exact absurd hnil Nat.toDigits_ne_nil
    · rw [ofDigits_toDigits]
  · intro tail he
    cases hdigits : Nat.toDigits 10 n with
    | nil => exact Nat.toDigits_ne_nil hdigits
    | cons c cs =>
      rw [hdigits] at he
      refine head_toDigits hn c ?_ (List.cons.inj he).1
      rw [hdigits]
      rfl

theorem readFraction_of_ends {rest : List Char} (h : Ends rest) :
    readFraction rest = some (false, rest) := by
  unfold readFraction
  split
  · rcases h '.' rfl with he | he | he <;> cases he
  · rfl

theorem readExponent_of_ends {rest : List Char} (h : Ends rest) :
    readExponent rest = some (false, rest) := by
  unfold readExponent
  split
  · rcases h 'e' rfl with he | he | he <;> cases he
  · rcases h 'E' rfl with he | he | he <;> cases he
  · rfl

theorem readNumber_toDigits (n : Nat) {rest : List Char} (h : Ends rest) :
    readNumber (Nat.toDigits 10 n ++ rest) = some (.nat n, rest) := by
  rw [readNumber]
  · simp only [readUnsigned, readNat_toDigits n h, readFraction_of_ends h, readExponent_of_ends h]
    rfl
  · intro tail he
    cases hdigits : Nat.toDigits 10 n with
    | nil => exact Nat.toDigits_ne_nil hdigits
    | cons c cs =>
      have hc : isDigit c = true := isDigit_of_mem_toDigits (hdigits ▸ List.mem_cons_self)
      rw [hdigits] at he
      rw [(List.cons.inj he).1] at hc
      cases hc

/-! ### Texts -/

theorem hexValue_hexDigit : ∀ n < 16, hexValue (hexDigit n) = some n := by decide

theorem unitOf_control {n : Nat} (h : n < 32) :
    unitOf '0' '0' (hexDigit (n / 16)) (hexDigit (n % 16)) = some n := by
  have hzero : hexValue '0' = some 0 := rfl
  rw [unitOf, hzero, hexValue_hexDigit (n / 16) (by omega), hexValue_hexDigit (n % 16) (by omega)]
  simp only [Option.some.injEq]
  omega

theorem readPieces_escape (c : Char) (rest : List Char) :
    readPieces (escape c ++ rest) = (readPieces rest).map fun r => (.char c :: r.1, r.2) := by
  unfold escape
  split
  · subst_vars
    simp [readPieces, unescape]
  split
  · subst_vars
    simp [readPieces, unescape]
  split
  · subst_vars
    simp [readPieces, unescape]
  split
  · subst_vars
    simp [readPieces, unescape]
  split
  · subst_vars
    simp [readPieces, unescape]
  split
  · subst_vars
    simp [readPieces, unescape]
  split
  · subst_vars
    simp [readPieces, unescape]
  split
  · rename_i hcontrol
    have hpiece : pieceOf c.toNat = .char c := by
      have hno : (isHigh c.toNat || isLow c.toNat) = false := by
        simp only [isHigh, isLow, Bool.or_eq_false_iff, Bool.and_eq_false_iff,
          decide_eq_false_iff_not]
        omega
      rw [pieceOf, hno, Char.ofNat_toNat]
      rfl
    simp only [List.cons_append, List.nil_append, readPieces, unitOf_control hcontrol, hpiece]
  · rename_i hquote hbackslash _ _ _ _ _ hcontrol
    rw [List.singleton_append, readPieces, if_neg hcontrol]
    · exact hquote
    · exact fun _ _ _ _ _ he _ => hbackslash he
    · exact fun _ _ he _ => hbackslash he

theorem readPieces_quoted (cs rest : List Char) :
    readPieces (cs.flatMap escape ++ '"' :: rest) = some (cs.map .char, rest) := by
  induction cs with
  | nil => rfl
  | cons c cs ih =>
    rw [List.flatMap_cons, List.append_assoc, readPieces_escape, ih]
    rfl

theorem joinPieces_map (cs : List Char) : joinPieces (cs.map .char) = some cs := by
  induction cs with
  | nil => rfl
  | cons c cs ih =>
    rw [List.map_cons, joinPieces, ih]
    rfl

theorem readText_quoted (s : String) (rest : List Char) :
    readText (s.toList.flatMap escape ++ '"' :: rest) = some (some s, rest) := by
  rw [readText, readPieces_quoted, Option.map_some, joinPieces_map, Option.map_some,
    String.ofList_toList]

theorem readKey_quote (key : String) (rest : List Char) :
    readKey (quote key ++ ':' :: rest) = some (some key, rest) := by
  have hquote : quote key ++ ':' :: rest =
      '"' :: (key.toList.flatMap escape ++ '"' :: ':' :: rest) := by
    rw [quote, List.cons_append, List.append_assoc]
    rfl
  rw [readKey, hquote, skipBlanks_cons (by rfl)]
  simp only [readText_quoted]
  rw [skipBlanks_cons (by rfl)]
  rfl

/-! ### Values -/

mutual

/-- A value all of which can be read. -/
def Readable : Json → Prop
  | .unreadable => False
  | .array xs => ElementsReadable xs
  | .object ms => MembersReadable ms
  | _ => True

def ElementsReadable : List Json → Prop
  | [] => True
  | x :: xs => Readable x ∧ ElementsReadable xs

def MembersReadable : List (String × Json) → Prop
  | [] => True
  | (_, x) :: ms => Readable x ∧ MembersReadable ms

end

theorem readable_map (ms : List (String × Json)) :
    readable (ms.map fun m => (some m.1, m.2)) = some ms := by
  induction ms with
  | nil => rfl
  | cons m ms ih =>
    rw [List.map_cons, readable, ih]
    rfl

theorem ends_printElements (xs : List Json) (rest : List Char) :
    Ends (printElements xs ++ rest) := by
  cases xs with
  | nil => exact .cons (Or.inr (Or.inl rfl))
  | cons x xs => exact .cons (Or.inl rfl)

theorem ends_printMembers (ms : List (String × Json)) (rest : List Char) :
    Ends (printMembers ms ++ rest) := by
  cases ms with
  | nil => exact .cons (Or.inr (Or.inr rfl))
  | cons m ms => exact .cons (Or.inl rfl)

/-- A printed value begins with no blank and no closing bracket. -/
structure Begins (cs : List Char) : Prop where
  not_blank : skipBlanks cs = cs
  not_bracket : ∀ rest, cs ≠ ']' :: rest

theorem Begins.of_cons {c : Char} {cs : List Char} (hc : isBlank c = false) (h : c ≠ ']') :
    Begins (c :: cs) :=
  ⟨skipBlanks_cons hc, fun _ he => h (List.cons.inj he).1⟩

theorem not_blank_of_isDigit {c : Char} (h : isDigit c = true) :
    isBlank c = false ∧ c ≠ ']' := by
  have hne : ∀ d, isDigit d = false → c ≠ d := by
    rintro d hd rfl
    rw [h] at hd
    cases hd
  refine ⟨?_, hne ']' rfl⟩
  simp only [isBlank, Bool.or_eq_false_iff, beq_eq_false_iff_ne]
  exact ⟨⟨⟨hne ' ' rfl, hne '\n' rfl⟩, hne '\t' rfl⟩, hne '\r' rfl⟩

theorem begins_print (j : Json) (rest : List Char) : Begins (j.print ++ rest) := by
  cases j with
  | bool b => cases b <;> exact .of_cons rfl (by decide)
  | nat n =>
    rw [print]
    cases hdigits : Nat.toDigits 10 n with
    | nil => exact absurd hdigits Nat.toDigits_ne_nil
    | cons c cs =>
      have hc : isDigit c = true := isDigit_of_mem_toDigits (hdigits ▸ List.mem_cons_self)
      exact .of_cons (not_blank_of_isDigit hc).1 (not_blank_of_isDigit hc).2
  | array xs => cases xs <;> exact .of_cons rfl (by decide)
  | object ms => cases ms <;> exact .of_cons rfl (by decide)
  | _ => exact .of_cons rfl (by decide)

theorem length_print_pos (j : Json) : 0 < j.print.length := by
  cases j with
  | bool b => cases b <;> exact Nat.zero_lt_succ _
  | nat n => exact List.length_pos_iff.mpr Nat.toDigits_ne_nil
  | array xs => cases xs <;> exact Nat.zero_lt_succ _
  | object ms => cases ms <;> exact Nat.zero_lt_succ _
  | _ => exact Nat.zero_lt_succ _

theorem readValue_of_digit (fuel : Nat) {c : Char} (hc : isDigit c = true) (cs : List Char) :
    readValue (fuel + 1) (c :: cs) = readNumber (c :: cs) := by
  rw [readValue, skipBlanks_cons (not_blank_of_isDigit hc).1]
  split
  all_goals first
    | rfl
    | rename_i he
      rw [(List.cons.inj he).1] at hc
      cases hc

section
variable {fuel : Nat} {cs rest : List Char} {x : Json}

theorem readValue_bracket (h : Begins cs) (hx : readValue fuel cs = some (x, rest)) :
    readValue (fuel + 1) ('[' :: cs) =
      (readElements fuel rest).map fun r => (.array (x :: r.1), r.2) := by
  rw [readValue, skipBlanks_cons (by rfl)]
  simp only [h.not_blank]
  split
  · exact absurd rfl (h.not_bracket _)
  · simp only [hx]

theorem readValue_brace (key : String) (hx : readValue fuel cs = some (x, rest)) :
    readValue (fuel + 1) ('{' :: (quote key ++ ':' :: cs)) =
      (readMembers fuel rest).map fun r => (ofMembers ((some key, x) :: r.1), r.2) := by
  have hkey : skipBlanks (quote key ++ ':' :: cs) = quote key ++ ':' :: cs :=
    skipBlanks_cons (by rfl)
  rw [readValue, skipBlanks_cons (by rfl)]
  simp only [hkey]
  split
  · rename_i he
    cases he
  · simp only [readKey_quote, hx]

theorem readElements_comma (hx : readValue fuel cs = some (x, rest)) :
    readElements (fuel + 1) (',' :: cs) =
      (readElements fuel rest).map fun r => (x :: r.1, r.2) := by
  rw [readElements, skipBlanks_cons (by rfl)]
  simp only [hx]

theorem readMembers_comma (key : String) (hx : readValue fuel cs = some (x, rest)) :
    readMembers (fuel + 1) (',' :: (quote key ++ ':' :: cs)) =
      (readMembers fuel rest).map fun r => ((some key, x) :: r.1, r.2) := by
  rw [readMembers, skipBlanks_cons (by rfl)]
  simp only [readKey_quote, hx]

end

mutual

theorem readValue_print : ∀ (j : Json) (fuel : Nat) (rest : List Char), j.Readable → Ends rest →
    j.print.length ≤ fuel → readValue fuel (j.print ++ rest) = some (j, rest)
  | j, 0, _, _, _, hfuel => absurd (j.length_print_pos) (Nat.not_lt.mpr hfuel)
  | .null, fuel + 1, rest, _, _, _ => rfl
  | .bool true, fuel + 1, rest, _, _, _ => rfl
  | .bool false, fuel + 1, rest, _, _, _ => rfl
  | .nat n, fuel + 1, rest, _, hrest, _ => by
    rw [print, ← readNumber_toDigits n hrest]
    cases hdigits : Nat.toDigits 10 n with
    | nil => exact absurd hdigits Nat.toDigits_ne_nil
    | cons c cs =>
      have hc : isDigit c = true := isDigit_of_mem_toDigits (hdigits ▸ List.mem_cons_self)
      exact readValue_of_digit fuel hc _
  | .text s, fuel + 1, rest, _, _, _ => by
    have hquote : quote s ++ rest = '"' :: (s.toList.flatMap escape ++ '"' :: rest) := by
      rw [quote, List.cons_append, List.append_assoc]
      rfl
    rw [print, hquote, readValue, skipBlanks_cons (by rfl)]
    simp only [readText_quoted]
    rfl
  | .array [], fuel + 1, rest, _, _, _ => rfl
  | .array (x :: xs), fuel + 1, rest, h, hrest, hfuel => by
    rw [print, List.length_cons, List.length_append] at hfuel
    have hx := readValue_print x fuel _ h.1 (ends_printElements xs rest) (by omega)
    rw [print, List.cons_append, List.append_assoc, readValue_bracket (begins_print x _) hx,
      readElements_print xs fuel rest h.2 (by omega)]
    rfl
  | .object [], fuel + 1, rest, _, _, _ => rfl
  | .object ((key, x) :: ms), fuel + 1, rest, h, hrest, hfuel => by
    simp only [print, List.length_cons, List.length_append] at hfuel
    have hx := readValue_print x fuel _ h.1 (ends_printMembers ms rest) (by omega)
    rw [print, List.cons_append, List.append_assoc, List.cons_append, List.append_assoc,
      readValue_brace key hx, readMembers_print ms fuel rest h.2 (by omega), Option.map_some]
    have hmembers := readable_map ((key, x) :: ms)
    rw [List.map_cons] at hmembers
    simp only [ofMembers, hmembers]

theorem readElements_print : ∀ (xs : List Json) (fuel : Nat) (rest : List Char),
    ElementsReadable xs → (printElements xs).length ≤ fuel →
      readElements fuel (printElements xs ++ rest) = some (xs, rest)
  | [], 0, _, _, hfuel => nomatch hfuel
  | [], fuel + 1, rest, _, _ => rfl
  | x :: xs, 0, _, _, hfuel => nomatch hfuel
  | x :: xs, fuel + 1, rest, h, hfuel => by
    rw [printElements, List.length_cons, List.length_append] at hfuel
    have hx := readValue_print x fuel _ h.1 (ends_printElements xs rest) (by omega)
    rw [printElements, List.cons_append, List.append_assoc, readElements_comma hx,
      readElements_print xs fuel rest h.2 (by omega)]
    rfl

theorem readMembers_print : ∀ (ms : List (String × Json)) (fuel : Nat) (rest : List Char),
    MembersReadable ms → (printMembers ms).length ≤ fuel →
      readMembers fuel (printMembers ms ++ rest) = some (ms.map fun m => (some m.1, m.2), rest)
  | [], 0, _, _, hfuel => nomatch hfuel
  | [], fuel + 1, rest, _, _ => rfl
  | (key, x) :: ms, 0, _, _, hfuel => nomatch hfuel
  | (key, x) :: ms, fuel + 1, rest, h, hfuel => by
    simp only [printMembers, List.length_cons, List.length_append] at hfuel
    have hx := readValue_print x fuel _ h.1 (ends_printMembers ms rest) (by omega)
    rw [printMembers, List.cons_append, List.append_assoc, List.cons_append, List.append_assoc,
      readMembers_comma key hx, readMembers_print ms fuel rest h.2 (by omega)]
    rfl

end

theorem read_render {j : Json} (h : j.Readable) : read j.render = some j := by
  have hvalue := readValue_print j (j.print.length + 1) [] h .nil (Nat.le_succ _)
  rw [List.append_nil] at hvalue
  rw [read, render, String.toList_ofList, hvalue]
  rfl

end Stockroom.Json
