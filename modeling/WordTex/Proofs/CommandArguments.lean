import WordTex.Proofs.LatexSafety

/-! # The uses of a command in LaTeX

A command is used wherever its name stands between a backslash and a brace; its argument is what
follows up to the next closing brace. Labels and cross-references are the only such places of their
commands in the LaTeX of a tree, since no text is written as one of them. -/
namespace WordTex

/-- How a command begins. -/
def opening (name : String) : List Char := '\\' :: (name.toList ++ ['\x7b'])

/-- The arguments of a command, in the order of its uses. -/
def argumentsOf (name : String) : List Char → List String
  | [] => []
  | c :: cs =>
    if opening name <+: c :: cs then
      .ofList (((c :: cs).drop (opening name).length).takeWhile (· ≠ '\x7d')) :: argumentsOf name cs
    else argumentsOf name cs

/-- The arguments that a text adds to those of any text after it. -/
def HasArguments (name : String) (tex : List Char) (args : List String) : Prop :=
  ∀ rest, argumentsOf name (tex ++ rest) = args ++ argumentsOf name rest

variable {name : String}

theorem argumentsOf_cons {c : Char} (hc : c ≠ '\\') (cs : List Char) :
    argumentsOf name (c :: cs) = argumentsOf name cs := by
  have hno : ¬opening name <+: c :: cs := fun h => hc (List.cons_prefix_cons.mp h).1.symm
  rw [argumentsOf, if_neg hno]

theorem argumentsOf_opening (body : List Char) :
    argumentsOf name (opening name ++ body) =
      .ofList (body.takeWhile (· ≠ '\x7d')) :: argumentsOf name (name.toList ++ ['\x7b'] ++ body) := by
  have hcons : opening name ++ body = '\\' :: (name.toList ++ ['\x7b'] ++ body) := rfl
  have hprefix : opening name <+: '\\' :: (name.toList ++ ['\x7b'] ++ body) :=
    List.prefix_append (opening name) body
  rw [hcons, argumentsOf, if_pos hprefix, ← hcons, List.drop_left]

namespace HasArguments

variable {a b : List Char} {ks ls : List String}

theorem nil : HasArguments name [] [] := fun _ => rfl

theorem append (ha : HasArguments name a ks) (hb : HasArguments name b ls) :
    HasArguments name (a ++ b) (ks ++ ls) := by
  intro rest
  rw [List.append_assoc, ha, hb, List.append_assoc]

theorem flatMap {α : Type} {f : α → List Char} {g : α → List String} {l : List α}
    (h : ∀ x ∈ l, HasArguments name (f x) (g x)) : HasArguments name (l.flatMap f) (l.flatMap g) := by
  induction l with
  | nil => exact nil
  | cons x l ih =>
    rw [List.flatMap_cons, List.flatMap_cons]
    exact (h x List.mem_cons_self).append (ih fun y hy => h y (List.mem_cons_of_mem x hy))

theorem of_not_mem (h : '\\' ∉ a) : HasArguments name a [] := by
  intro rest
  induction a with
  | nil => rfl
  | cons c a ih =>
    obtain ⟨hc, ha⟩ := List.ne_and_not_mem_of_not_mem_cons h
    rw [List.cons_append, argumentsOf_cons (Ne.symm hc)]
    exact ih ha

theorem trimLeft (h : HasArguments name a ks) : HasArguments name (trimLeft a) ks := by
  intro rest
  have hblank : '\\' ∉ a.takeWhile isBlank := fun hc =>
    absurd (List.mem_takeWhile_imp hc) (by decide)
  have hfront : HasArguments name (a.takeWhile isBlank) [] := of_not_mem hblank
  have hsplit := hfront (a.dropWhile isBlank ++ rest)
  rw [← List.append_assoc, List.takeWhile_append_dropWhile, h] at hsplit
  exact hsplit.symm

theorem eq_argumentsOf (h : HasArguments name a ks) : argumentsOf name a = ks := by
  simpa [argumentsOf] using h []

/-- A use of the command itself. -/
theorem commandTex (hname : '\\' ∉ name.toList) (h : ∀ c ∈ a, c ≠ '\\' ∧ c ≠ '\x7d') :
    HasArguments name (commandTex name a) [.ofList a] := by
  intro rest
  have htex : WordTex.commandTex name a ++ rest = opening name ++ (a ++ '\x7d' :: rest) := by
    simp [WordTex.commandTex, opening]
  have harg : (a ++ '\x7d' :: rest).takeWhile (· ≠ '\x7d') = a := by
    rw [List.takeWhile_append_of_pos fun c hc => by simpa using (h c hc).2]
    simp
  have hrest : HasArguments name (name.toList ++ ['\x7b'] ++ a ++ ['\x7d']) [] := by
    refine of_not_mem fun hc => ?_
    simp only [List.mem_append, List.mem_singleton] at hc
    rcases hc with ((hc | hc) | hc) | hc
    · exact hname hc
    · exact absurd hc (by decide)
    · exact (h _ hc).1 rfl
    · exact absurd hc (by decide)
  rw [htex, argumentsOf_opening, harg]
  simpa using hrest rest

example : argumentsOf "label" "a\\label\x7bb\x7d\\section\x7bc\x7d".toList = ["b"] := by decide

/-- Keys have no character that would end the argument or begin a command. -/
theorem ne_of_mem_labelKey {bookmark : String} {c : Char} (hc : c ∈ (labelKey bookmark).toList) :
    c ≠ '\\' ∧ c ≠ '\x7d' := by
  rw [labelKey, String.toList_ofList] at hc
  have hkey := (List.mem_filter.mp hc).2
  constructor <;> rintro rfl <;> exact absurd hkey (by decide)

theorem commandTex_labelKey (hname : '\\' ∉ name.toList) (bookmark : String) :
    HasArguments name (WordTex.commandTex name (labelKey bookmark).toList) [labelKey bookmark] := by
  have hchars : ∀ c ∈ (labelKey bookmark).toList, c ≠ '\\' ∧ c ≠ '\x7d' := fun _ => ne_of_mem_labelKey
  have h := commandTex hname hchars
  rwa [String.ofList_toList] at h

end HasArguments

/-- The characters that commands are made of after the backslash. -/
def isCommandChar (c : Char) : Bool := c.isAlpha || c == '\x7b'

/-- What is missing of the command after one more character, if it may have begun and is not
complete. No underscore may come in between, since it may be drawn as nothing. So what is missing stays the
same when blanks are drawn and quotes are replaced. -/
def missingAfter (name : String) (missing : List Char) (c : Char) : Option (List Char) :=
  if c = '\\' then some (name.toList ++ ['\x7b'])
  else match missing with
    | [] => some []
    | d :: more =>
      if isCommandChar c then
        if c = d then if more = [] then none else some more
        else some []
      else if c = '_' then none
      else some []

/-- The text does not have the command and ends with no part of it. -/
def Lacks (name : String) (tex : List Char) : Prop :=
  tex.foldlM (missingAfter name) [] = some []

instance (name : String) (tex : List Char) : Decidable (Lacks name tex) :=
  inferInstanceAs (Decidable (_ = _))

theorem missingAfter_nil {c : Char} (hc : c ≠ '\\') : missingAfter name [] c = some [] := by
  rw [missingAfter, if_neg hc]

/-- What is missing does not follow, whatever comes after the text: a text that would complete the
command is rejected. -/
theorem not_missing_prefix {tex missing rest : List Char} (hmissing : missing ≠ [])
    (hchars : ∀ c ∈ missing, isCommandChar c = true)
    (h : tex.foldlM (missingAfter name) missing = some []) : ¬missing <+: tex ++ rest := by
  induction tex generalizing missing with
  | nil => exact (hmissing (Option.some.inj h)).elim
  | cons c tex ih =>
    intro hprefix
    obtain ⟨d, more, rfl⟩ := List.exists_cons_of_ne_nil hmissing
    rw [List.cons_append] at hprefix
    obtain ⟨rfl, hmore⟩ := List.cons_prefix_cons.mp hprefix
    have hd : isCommandChar d = true := hchars d List.mem_cons_self
    have hback : d ≠ '\\' := by
      rintro rfl
      exact absurd hd (by decide)
    rw [List.foldlM_cons, missingAfter, if_neg hback] at h
    simp only [hd, if_true] at h
    split at h
    · cases h
    · rename_i hne
      exact ih hne (fun e he => hchars e (List.mem_cons_of_mem d he)) h hmore

/-- Such a text adds no arguments. -/
theorem argumentsOf_append_of_foldlM (hname : IsCommandName name) {tex missing rest : List Char}
    (h : tex.foldlM (missingAfter name) missing = some []) :
    argumentsOf name (tex ++ rest) = argumentsOf name rest := by
  have hchars : ∀ c ∈ name.toList ++ ['\x7b'], isCommandChar c = true := by
    intro c hc
    rcases List.mem_append.mp hc with hc | hc
    · simp [isCommandChar, hname.2 c hc]
    · simp [isCommandChar, List.mem_singleton.mp hc]
  -- the command can only begin at a backslash, and there all of it is missing
  induction tex generalizing missing with
  | nil => rfl
  | cons c tex ih =>
    rw [List.foldlM_cons] at h
    obtain ⟨after, hafter, h⟩ := Option.bind_eq_some_iff.mp h
    rw [List.cons_append]
    by_cases hc : c = '\\'
    · subst hc
      obtain rfl : name.toList ++ ['\x7b'] = after := Option.some.inj hafter
      have hno : ¬opening name <+: '\\' :: (tex ++ rest) := fun hp =>
        not_missing_prefix (by simp) hchars h (List.cons_prefix_cons.mp hp).2
      rw [argumentsOf, if_neg hno, ih h]
    · rw [argumentsOf_cons hc, ih h]

namespace Lacks

variable {a b : List Char}

theorem nil : Lacks name [] := rfl

theorem append (ha : Lacks name a) (hb : Lacks name b) : Lacks name (a ++ b) := by
  rw [Lacks, List.foldlM_append, ha]
  exact hb

theorem of_not_mem (h : '\\' ∉ a) : Lacks name a := by
  induction a with
  | nil => exact nil
  | cons c a ih =>
    obtain ⟨hc, ha⟩ := List.ne_and_not_mem_of_not_mem_cons h
    rw [Lacks, List.foldlM_cons, missingAfter_nil (Ne.symm hc)]
    exact ih ha

theorem hasArguments (hname : IsCommandName name) (h : Lacks name a) : HasArguments name a [] :=
  fun _ => argumentsOf_append_of_foldlM hname h

theorem key (bookmark : String) : Lacks name (labelKey bookmark).toList :=
  of_not_mem fun hc => (HasArguments.ne_of_mem_labelKey hc).1 rfl

end Lacks

end WordTex
