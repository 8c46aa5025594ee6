import WordTex.JsonText

/-! # Reading JSON text that was written

What is written for a value of strings, arrays and objects is read as that value. -/
namespace WordTex
namespace Json

/-- What is written in a string for a character. -/
def writeChar (c : Char) : List Char := (escapeChar? c).getD [c]

theorem hexText_toList_of_lt : ∀ n < 16, (hexText n).toList = [n.digitChar] := by decide

theorem number?_digitChar : ∀ n < 16, number? 16 ['0', '0', '0', n.digitChar] = some n := by decide

theorem hexText_toList_of_le :
    ∀ n < 32, 16 ≤ n → (hexText n).toList = ['1', (n - 16).digitChar] := by decide

theorem number?_digitChar_of_le :
    ∀ n < 32, 16 ≤ n → number? 16 ['0', '0', '1', (n - 16).digitChar] = some n := by decide

/-- The ways to write a character in a string: as an escape by letter or by number, or as itself. -/
inductive WritesChar : Char → List Char → Prop
  | letter {c l : Char} (h : letterEscape? l = some c) : WritesChar c ['\\', l]
  | number {c a b d e : Char} (h : number? 16 [a, b, d, e] = some c.toNat) (hc : c.toNat < 32) :
      WritesChar c ['\\', 'u', a, b, d, e]
  | plain {c : Char} (hquote : c ≠ '\x22') (hslash : c ≠ '\\') (hc : ¬ c.toNat < 32) : WritesChar c [c]

theorem writesChar_writeChar (c : Char) : WritesChar c (writeChar c) := by
  by_cases hquote : c = '\x22'
  · exact hquote ▸ .letter rfl
  by_cases hslash : c = '\\'
  · exact hslash ▸ .letter rfl
  by_cases hb : c = '\x08'
  · exact hb ▸ .letter rfl
  by_cases hf : c = '\x0c'
  · exact hf ▸ .letter rfl
  by_cases hn : c = '\n'
  · exact hn ▸ .letter rfl
  by_cases hr : c = '\r'
  · exact hr ▸ .letter rfl
  by_cases ht : c = '\t'
  · exact ht ▸ .letter rfl
  rw [writeChar, escapeChar?, if_neg hquote, if_neg hslash, if_neg hb, if_neg hf, if_neg hn,
    if_neg hr, if_neg ht]
  by_cases hshort : c.toNat < 16
  · rw [if_pos hshort, hexText_toList_of_lt _ hshort]
    exact .number (number?_digitChar _ hshort) (by omega)
  rw [if_neg hshort]
  by_cases hlong : c.toNat < 32
  · rw [if_pos hlong, hexText_toList_of_le _ hlong (by omega)]
    exact .number (number?_digitChar_of_le _ hlong (by omega)) hlong
  · rw [if_neg hlong]
    exact .plain hquote hslash hlong

/-- What is written for a character is read as the character. -/
theorem WritesChar.stringChar? {c : Char} {s : List Char} (h : WritesChar c s) (rest : List Char) :
    stringChar? (s ++ rest) = some (some c, rest) := by
  cases h with
  | @letter l h =>
    have hl : l ≠ 'u' := by
      rintro rfl
      simp [letterEscape?] at h
    simp [Json.stringChar?, h]
  | number h hc =>
    have hhigh : isHighSurrogate c.toNat = false := by simp [isHighSurrogate]; omega
    have hlow : isLowSurrogate c.toNat = false := by simp [isLowSurrogate]; omega
    simp [Json.stringChar?, unicodeEscape?, hexUnit?, h, hhigh, hlow]
  | plain hquote hslash hc => simp [Json.stringChar?, hslash, hc]

/-- No character is written with a quote in front. -/
theorem WritesChar.head?_ne {c : Char} {s : List Char} (h : WritesChar c s) (rest : List Char) :
    (s ++ rest).head? ≠ some '\x22' := by
  cases h with
  | letter | number => simp
  | plain hquote => simpa using hquote

theorem WritesChar.length_pos {c : Char} {s : List Char} (h : WritesChar c s) : 0 < s.length := by
  cases h <;> simp

theorem writeString_eq (s : String) : writeString s = '\x22' :: (s.toList.flatMap writeChar ++ ['\x22']) :=
  rfl

theorem readInside_succ {s : List Char} (h : s.head? ≠ some '\x22') (fuel : Nat) :
    readInside (fuel + 1) s =
      (stringChar? s).bind fun r => (readInside fuel r.2).bind fun t =>
        some (r.1.bind fun c => t.1.map (c :: ·), t.2) := by
  rw [readInside]
  · rfl
  · rintro rest rfl
    exact h rfl

theorem readInside_flatMap_writeChar (cs rest : List Char) {fuel : Nat} (h : cs.length ≤ fuel) :
    readInside fuel (cs.flatMap writeChar ++ '\x22' :: rest) = some (some cs, rest) := by
  induction cs generalizing fuel with
  | nil => simp [readInside]
  | cons c cs ih =>
    cases fuel with
    | zero => simp at h
    | succ fuel =>
      have hc := writesChar_writeChar c
      rw [List.flatMap_cons, List.append_assoc, readInside_succ (hc.head?_ne _), hc.stringChar?,
        Option.bind_some, ih (Nat.le_of_succ_le_succ h)]
      rfl

theorem length_le_flatMap_writeChar (cs : List Char) : cs.length ≤ (cs.flatMap writeChar).length := by
  induction cs with
  | nil => exact Nat.le_refl 0
  | cons c cs ih =>
    have hc := (writesChar_writeChar c).length_pos
    rw [List.flatMap_cons, List.length_append, List.length_cons]
    omega

/-- What is written for a string, after its opening quote, is read as the string. -/
theorem readString_writeString (s : String) (rest : List Char) :
    readString (s.toList.flatMap writeChar ++ '\x22' :: rest) = some (some s, rest) := by
  have hlength : s.toList.length ≤ (s.toList.flatMap writeChar ++ '\x22' :: rest).length := by
    have := length_le_flatMap_writeChar s.toList
    rw [List.length_append]
    omega
  rw [readString, readInside_flatMap_writeChar _ _ hlength, Option.map_some, Option.map_some,
    String.ofList_toList]

mutual

/-- The value is made of strings, arrays and objects. -/
def isTextual : Json → Bool
  | .string _ => true
  | .array items => areTextual items
  | .object members => membersTextual members
  | _ => false

def areTextual : List Json → Bool
  | [] => true
  | v :: vs => v.isTextual && areTextual vs

def membersTextual : List (String × Json) → Bool
  | [] => true
  | (_, v) :: ms => v.isTextual && membersTextual ms

end

theorem areTextual_iff {items : List Json} : areTextual items ↔ ∀ v ∈ items, v.isTextual := by
  induction items with
  | nil => simp [areTextual]
  | cons v items ih => rw [areTextual, Bool.and_eq_true, ih, List.forall_mem_cons]

theorem membersTextual_iff {members : List (String × Json)} :
    membersTextual members ↔ ∀ m ∈ members, m.2.isTextual := by
  induction members with
  | nil => simp [membersTextual]
  | cons m members ih => rw [membersTextual, Bool.and_eq_true, ih, List.forall_mem_cons]

theorem isTextual_array_iff {items : List Json} :
    (array items).isTextual ↔ ∀ v ∈ items, v.isTextual := areTextual_iff

theorem isTextual_object_iff {members : List (String × Json)} :
    (object members).isTextual ↔ ∀ m ∈ members, m.2.isTextual := membersTextual_iff

mutual

theorem isSound_of_isTextual : ∀ v : Json, v.isTextual → v.isSound
  | .string _, _ => rfl
  | .array items, h => by
    rw [isTextual] at h
    rw [isSound, areSound_of_areTextual items h]
  | .object members, h => by
    rw [isTextual] at h
    rw [isSound, membersSound_of_membersTextual members h]
  | .null, h | .bool _, h | .number _, h | .undecodable, h => by simp [isTextual] at h

theorem areSound_of_areTextual : ∀ items : List Json, areTextual items → areSound items
  | [], _ => rfl
  | v :: vs, h => by
    rw [areTextual, Bool.and_eq_true] at h
    rw [areSound, isSound_of_isTextual v h.1, areSound_of_areTextual vs h.2, Bool.and_self]

theorem membersSound_of_membersTextual : ∀ members : List (String × Json),
    membersTextual members → membersSound members
  | [], _ => rfl
  | (k, v) :: ms, h => by
    rw [membersTextual, Bool.and_eq_true] at h
    rw [membersSound, isSound_of_isTextual v h.1, membersSound_of_membersTextual ms h.2, Bool.and_self]

end

theorem write_string (s : String) : write (.string s) = writeString s := rfl

theorem write_array (items : List Json) : write (.array items) = '[' :: (writeItems items ++ [']']) :=
  rfl

theorem write_object (members : List (String × Json)) :
    write (.object members) = '\x7b' :: (writeMembers members ++ ['\x7d']) := rfl

theorem writeItems_singleton (v : Json) : writeItems [v] = v.write := rfl

theorem writeItems_cons (v w : Json) (vs : List Json) :
    writeItems (v :: w :: vs) = v.write ++ ',' :: writeItems (w :: vs) := rfl

theorem writeMembers_singleton (k : String) (v : Json) :
    writeMembers [(k, v)] = writeString k ++ ':' :: v.write := rfl

theorem writeMembers_cons (k : String) (v : Json) (m : String × Json) (ms : List (String × Json)) :
    writeMembers ((k, v) :: m :: ms) =
      writeString k ++ ':' :: v.write ++ ',' :: writeMembers (m :: ms) := rfl

/-- The character begins a string, an array or an object. -/
def opens (c : Char) : Prop := c = '\x22' ∨ c = '[' ∨ c = '\x7b'

theorem exists_write_eq_cons {v : Json} (hv : v.isTextual) : ∃ c s, v.write = c :: s ∧ opens c := by
  cases v with
  | string s => exact ⟨_, _, rfl, .inl rfl⟩
  | array items => exact ⟨_, _, write_array items, .inr (.inl rfl)⟩
  | object members => exact ⟨_, _, write_object members, .inr (.inr rfl)⟩
  | _ => simp [isTextual] at hv

theorem exists_writeItems_eq_cons {v : Json} (hv : v.isTextual) (vs : List Json) :
    ∃ c s, writeItems (v :: vs) = c :: s ∧ opens c := by
  obtain ⟨c, s, hs, hc⟩ := exists_write_eq_cons hv
  cases vs with
  | nil => exact ⟨c, s, by rw [writeItems_singleton, hs], hc⟩
  | cons w vs => exact ⟨c, _, by rw [writeItems_cons, hs, List.cons_append], hc⟩

theorem exists_writeMembers_eq_cons (m : String × Json) (ms : List (String × Json)) :
    ∃ s, writeMembers (m :: ms) = '\x22' :: s := by
  cases ms with
  | nil => exact ⟨_, rfl⟩
  | cons => exact ⟨_, rfl⟩

section

variable {fuel : Nat} {s t rest : List Char} {v : Json} {vs : List Json} {k : String}
  {ms : List (String × Json)}

theorem readValue_writeString (s : String) :
    readValue (fuel + 1) (writeString s ++ rest) = some (.string s, rest) := by
  rw [writeString_eq, List.cons_append, List.append_assoc]
  change (readString (s.toList.flatMap writeChar ++ '\x22' :: rest)).map _ = _
  rw [readString_writeString]
  rfl

theorem readValue_of_readItems {c : Char} (hc : opens c)
    (h : readItems fuel (c :: s) = some (vs, rest)) :
    readValue (fuel + 1) ('[' :: c :: s) = some (.array vs, rest) := by
  rcases hc with rfl | rfl | rfl
  all_goals
    change (readItems fuel (_ :: s)).map _ = _
    rw [h]
    rfl

theorem readValue_of_readMembers
    (h : readMembers fuel ('\x22' :: s) = some (some ms, rest)) :
    readValue (fuel + 1) ('\x7b' :: '\x22' :: s) = some (.object ms, rest) := by
  change (readMembers fuel ('\x22' :: s)).map _ = _
  rw [h]
  rfl

theorem readItems_last (h : readValue fuel s = some (v, ']' :: rest)) :
    readItems (fuel + 1) s = some ([v], rest) := by
  change (readValue fuel s).bind _ = _
  rw [h]
  rfl

theorem readItems_cons (h : readValue fuel s = some (v, ',' :: t))
    (ht : readItems fuel t = some (vs, rest)) : readItems (fuel + 1) s = some (v :: vs, rest) := by
  change (readValue fuel s).bind _ = _
  rw [h]
  change (readItems fuel t).bind _ = _
  rw [ht]
  rfl

/-- A member is its name and its value, with a colon between them. -/
theorem readMembers_name : readMembers (fuel + 1) (writeString k ++ ':' :: s) =
    (readValue fuel s).bind fun r =>
      match skipAsciiSpace r.2 with
      | '\x7d' :: rest => some (some [(k, r.1)], rest)
      | ',' :: t => (readMembers fuel t).bind fun q => some (q.1.map ((k, r.1) :: ·), q.2)
      | _ => none := by
  rw [writeString_eq, List.cons_append, List.append_assoc]
  change (readString (k.toList.flatMap writeChar ++ '\x22' :: ':' :: s)).bind _ = _
  rw [readString_writeString]
  rfl

theorem readMembers_last (h : readValue fuel s = some (v, '\x7d' :: rest)) :
    readMembers (fuel + 1) (writeString k ++ ':' :: s) = some (some [(k, v)], rest) := by
  rw [readMembers_name, h]
  rfl

theorem readMembers_cons (h : readValue fuel s = some (v, ',' :: t))
    (ht : readMembers fuel t = some (some ms, rest)) :
    readMembers (fuel + 1) (writeString k ++ ':' :: s) = some (some ((k, v) :: ms), rest) := by
  rw [readMembers_name, h]
  change (readMembers fuel t).bind _ = _
  rw [ht]
  rfl

end

mutual

theorem readValue_write : ∀ {v : Json} (_ : v.isTextual) {fuel : Nat} (_ : v.write.length ≤ fuel)
    (rest : List Char), readValue fuel (v.write ++ rest) = some (v, rest)
  | .string s, _, 0, hfuel, _ => by simp [write_string, writeString] at hfuel
  | .string s, _, fuel + 1, hfuel, rest => readValue_writeString s
  | .array _, _, 0, hfuel, _ => by simp [write_array] at hfuel
  | .array [], _, fuel + 1, hfuel, rest => rfl
  | .array (v :: vs), hv, fuel + 1, hfuel, rest => by
    rw [isTextual] at hv
    rw [write_array, List.length_cons, List.length_append, List.length_singleton] at hfuel
    have hitems := readItems_writeItems hv (by omega : (writeItems (v :: vs)).length < fuel) rest
    have hfirst := hv
    rw [areTextual, Bool.and_eq_true] at hfirst
    obtain ⟨c, s, hs, hc⟩ := exists_writeItems_eq_cons hfirst.1 vs
    rw [hs, List.cons_append] at hitems
    rw [write_array, hs]
    simpa using readValue_of_readItems hc hitems
  | .object _, _, 0, hfuel, _ => by simp [write_object] at hfuel
  | .object [], _, fuel + 1, hfuel, rest => rfl
  | .object (m :: ms), hv, fuel + 1, hfuel, rest => by
    rw [isTextual] at hv
    rw [write_object, List.length_cons, List.length_append, List.length_singleton] at hfuel
    have hmembers :=
      readMembers_writeMembers hv (by omega : (writeMembers (m :: ms)).length < fuel) rest
    obtain ⟨s, hs⟩ := exists_writeMembers_eq_cons m ms
    rw [hs, List.cons_append] at hmembers
    rw [write_object, hs]
    simpa using readValue_of_readMembers hmembers
  | .null, hv, _, _, _ | .bool _, hv, _, _, _ | .number _, hv, _, _, _ | .undecodable, hv, _, _, _ => by
    simp [isTextual] at hv

theorem readItems_writeItems : ∀ {v : Json} {vs : List Json} (_ : areTextual (v :: vs)) {fuel : Nat}
    (_ : (writeItems (v :: vs)).length < fuel) (rest : List Char),
    readItems fuel (writeItems (v :: vs) ++ ']' :: rest) = some (v :: vs, rest)
  | v, vs, hv, 0, hfuel, _ => absurd hfuel (Nat.not_lt_zero _)
  | v, [], hv, fuel + 1, hfuel, rest => by
    rw [areTextual, Bool.and_eq_true] at hv
    rw [writeItems_singleton] at hfuel ⊢
    exact readItems_last (readValue_write hv.1 (Nat.le_of_lt_succ hfuel) _)
  | v, w :: vs, hv, fuel + 1, hfuel, rest => by
    rw [areTextual, Bool.and_eq_true] at hv
    rw [writeItems_cons, List.length_append, List.length_cons] at hfuel
    rw [writeItems_cons, List.append_assoc, List.cons_append]
    exact readItems_cons (readValue_write hv.1 (by omega) _)
      (readItems_writeItems hv.2 (by omega) rest)

theorem readMembers_writeMembers : ∀ {m : String × Json} {ms : List (String × Json)}
    (_ : membersTextual (m :: ms)) {fuel : Nat} (_ : (writeMembers (m :: ms)).length < fuel)
    (rest : List Char),
    readMembers fuel (writeMembers (m :: ms) ++ '\x7d' :: rest) = some (some (m :: ms), rest)
  | m, ms, hv, 0, hfuel, _ => absurd hfuel (Nat.not_lt_zero _)
  | (k, v), [], hv, fuel + 1, hfuel, rest => by
    rw [membersTextual, Bool.and_eq_true] at hv
    rw [writeMembers_singleton, List.length_append, List.length_cons] at hfuel
    rw [writeMembers_singleton, List.append_assoc, List.cons_append]
    exact readMembers_last (readValue_write hv.1 (by omega) _)
  | (k, v), m :: ms, hv, fuel + 1, hfuel, rest => by
    rw [membersTextual, Bool.and_eq_true] at hv
    rw [writeMembers_cons, List.length_append, List.length_append, List.length_cons,
      List.length_cons] at hfuel
    rw [writeMembers_cons, List.append_assoc, List.append_assoc, List.cons_append, List.cons_append]
    exact readMembers_cons (readValue_write hv.1 (by omega) _)
      (readMembers_writeMembers hv.2 (by omega) rest)

end

/-- The text of a value of strings, arrays and objects is read as the value. -/
theorem ofText?_toText {v : Json} (hv : v.isTextual) : ofText? v.toText = some v := by
  have hread := readValue_write hv (Nat.le_succ v.write.length) []
  rw [List.append_nil] at hread
  simp [ofText?, toText, hread, skipAsciiSpace]

end Json
end WordTex
