import WordTex.Proofs.StyleFlags

/-! # Styles are restored from their written form

The pieces of a written style have no white space and no bars in them, so that they are found again
between the bars, and each of them is read as the flag that it was written for. -/
namespace WordTex

theorem splitOnChar_of_notMem {d : Char} {s : List Char} (h : d ∉ s) : splitOnChar d s = [s] := by
  induction s with
  | nil => rfl
  | cons c s ih =>
    rw [List.mem_cons, not_or] at h
    obtain ⟨hc, hs⟩ := h
    change (if c = d then _ else (splitOnChar d s).modifyHead (c :: ·)) = _
    rw [if_neg (Ne.symm hc), ih hs]
    rfl

theorem splitOnChar_append {d : Char} {s : List Char} (h : d ∉ s) (t : List Char) :
    splitOnChar d (s ++ d :: t) = s :: splitOnChar d t := by
  induction s with
  | nil => exact if_pos rfl
  | cons c s ih =>
    rw [List.mem_cons, not_or] at h
    obtain ⟨hc, hs⟩ := h
    change (if c = d then _ else (splitOnChar d (s ++ d :: t)).modifyHead (c :: ·)) = _
    rw [if_neg (Ne.symm hc), ih hs]
    rfl

/-- A text without white space and bars. -/
structure IsPiece (p : List Char) : Prop where
  ne_nil : p ≠ []
  not_blank : ∀ c ∈ p, isBlank c = false
  no_bar : '|' ∉ p

instance (p : List Char) : Decidable (IsPiece p) :=
  decidable_of_iff (p ≠ [] ∧ p.all (!isBlank ·) = true ∧ '|' ∉ p)
    ⟨fun ⟨hne, hall, hbar⟩ => ⟨hne, by simpa using hall, hbar⟩,
      fun h => ⟨h.ne_nil, by simpa using h.not_blank, h.no_bar⟩⟩

/-- Trimming leaves a piece. -/
theorem IsPiece.trim_append {p before after : List Char} (hp : IsPiece p)
    (hbefore : IsBlankText before) (hafter : IsBlankText after) :
    trim (before ++ (p ++ after)) = p := by
  have hreverse : (p ++ after).reverse = after.reverse ++ (p.reverse ++ []) := by simp
  rw [trim, trimLeft, dropWhile_isBlank_append hbefore hp.ne_nil hp.not_blank, trimRight, hreverse,
    dropWhile_isBlank_append (by rwa [IsBlankText, List.all_reverse]) (by simpa using hp.ne_nil)
      (by simpa using hp.not_blank), List.append_nil, List.reverse_reverse]

/-- Pieces that are joined by bars are found between them. -/
theorem map_trim_splitOnChar {ps : List (List Char)} (hne : ps ≠ []) (hps : ∀ p ∈ ps, IsPiece p)
    {before : List Char} (hbefore : IsBlankText before) (hbar : '|' ∉ before) :
    (splitOnChar '|' (before ++ " | ".toList.intercalate ps)).map trim = ps := by
  induction ps generalizing before with
  | nil => exact absurd rfl hne
  | cons p ps ih =>
    have hp := hps p List.mem_cons_self
    cases ps with
    | nil =>
      have hnone : '|' ∉ before ++ p := by simp [hbar, hp.no_bar]
      have htrim := hp.trim_append hbefore (by decide : IsBlankText [])
      rw [List.append_nil] at htrim
      rw [List.intercalate_singleton, splitOnChar_of_notMem hnone, List.map_singleton, htrim]
    | cons q ps =>
      have hnone : '|' ∉ before ++ (p ++ [' ']) := by simp [hbar, hp.no_bar]
      have hjoin : before ++ " | ".toList.intercalate (p :: q :: ps) =
          before ++ (p ++ [' ']) ++ '|' :: ([' '] ++ " | ".toList.intercalate (q :: ps)) := by
        rw [List.intercalate_cons_cons]
        simp
      rw [hjoin, splitOnChar_append hnone, List.map_cons, hp.trim_append hbefore (by decide),
        ih (by simp) (fun r hr => hps r (List.mem_cons_of_mem p hr)) (by decide) (by decide)]

theorem not_isBlankText_intercalate {ps : List (List Char)} (hne : ps ≠ [])
    (hps : ∀ p ∈ ps, IsPiece p) : ¬ IsBlankText (" | ".toList.intercalate ps) := by
  obtain ⟨p, ps, rfl⟩ := List.exists_cons_of_ne_nil hne
  have hp := hps p List.mem_cons_self
  obtain ⟨c, cs, rfl⟩ := List.exists_cons_of_ne_nil hp.ne_nil
  have hc := hp.not_blank c List.mem_cons_self
  cases ps with
  | nil => simp [IsBlankText, hc]
  | cons q ps => simp [IsBlankText, List.intercalate_cons_cons, hc]

/-- A list is restored, if each of its items is. -/
theorem mapM_map_eq_some {α β γ : Type} {write : α → β} {read : β → Option γ} {l : List α}
    {g : α → γ} (h : ∀ x ∈ l, read (write x) = some (g x)) :
    (l.map write).mapM read = some (l.map g) := by
  induction l with
  | nil => rfl
  | cons x l ih =>
    rw [List.map_cons, List.mapM_cons, h x List.mem_cons_self,
      ih fun y hy => h y (List.mem_cons_of_mem x hy)]
    rfl

namespace Style

/-- The pieces of a written style: the names of its flags, and a number for the bits without names. -/
def pieces (s : Style) : List String :=
  (named.filter fun f => s.contains f.1).map Prod.snd ++
    if s.unnamed = empty then [] else ["0x" ++ hexText s.unnamed.bits.toNat]

theorem toText_eq (s : Style) : s.toText = " | ".intercalate s.pieces := rfl

theorem unionAll_flags (s : Style) : unionAll s.flags = s := by
  have hall : ∀ bits : BitVec 8, unionAll (flags ⟨bits⟩) = ⟨bits⟩ := by decide +kernel
  exact hall s.bits

/-- Three bits have no names. -/
theorem exists_unnamed_eq (s : Style) : ∃ n < 8, s.unnamed = ⟨BitVec.ofNat 8 (32 * n)⟩ := by
  have hall : ∀ bits : BitVec 8, ∃ n < 8, unnamed ⟨bits⟩ = ⟨BitVec.ofNat 8 (32 * n)⟩ := by
    decide +kernel
  exact hall s.bits

theorem isPiece_name : ∀ f ∈ named, IsPiece f.2.toList := by decide

theorem ofPiece?_name : ∀ f ∈ named, ofPiece? f.2.toList = some f.1 := by decide

theorem isPiece_hexText (s : Style) : IsPiece ("0x" ++ hexText s.unnamed.bits.toNat).toList := by
  have hall : ∀ n < 8, IsPiece ("0x" ++ hexText (BitVec.ofNat 8 (32 * n)).toNat).toList := by decide
  obtain ⟨n, hn, hs⟩ := s.exists_unnamed_eq
  rw [hs]
  exact hall n hn

theorem ofPiece?_hexText (s : Style) :
    ofPiece? ("0x" ++ hexText s.unnamed.bits.toNat).toList = some s.unnamed := by
  have hall : ∀ n < 8, ofPiece? ("0x" ++ hexText (BitVec.ofNat 8 (32 * n)).toNat).toList =
      some ⟨BitVec.ofNat 8 (32 * n)⟩ := by decide
  obtain ⟨n, hn, hs⟩ := s.exists_unnamed_eq
  rw [hs]
  exact hall n hn

theorem isPiece_of_mem_pieces {s : Style} {p : String} (hp : p ∈ s.pieces) : IsPiece p.toList := by
  rcases List.mem_append.mp hp with hp | hp
  · obtain ⟨f, hf, rfl⟩ := List.mem_map.mp hp
    exact isPiece_name f (List.mem_of_mem_filter hf)
  · split at hp
    · cases hp
    · rw [List.mem_singleton.mp hp]
      exact s.isPiece_hexText

/-- The pieces are read as the flags of the style. -/
theorem mapM_ofPiece?_pieces (s : Style) :
    s.pieces.mapM (fun p => ofPiece? p.toList) = some s.flags := by
  have hnamed : ((named.filter fun f => s.contains f.1).map Prod.snd).mapM (fun p => ofPiece? p.toList) =
      some ((named.filter fun f => s.contains f.1).map Prod.fst) :=
    mapM_map_eq_some fun f hf => ofPiece?_name f (List.mem_of_mem_filter hf)
  rw [pieces, List.mapM_append, hnamed, flags, List.filter_map]
  split
  · rfl
  · rw [List.mapM_cons, s.ofPiece?_hexText]
    rfl

/-- Every style is restored, with the bits that have no names. -/
theorem ofText?_toText (s : Style) : ofText? s.toText = some s := by
  have htext : s.toText.toList = " | ".toList.intercalate (s.pieces.map String.toList) := by
    rw [toText_eq, String.toList_intercalate]
  have hpieces : ∀ p ∈ s.pieces.map String.toList, IsPiece p := by
    intro p hp
    obtain ⟨q, hq, rfl⟩ := List.mem_map.mp hp
    exact isPiece_of_mem_pieces hq
  have hflags : (s.pieces.map String.toList).mapM ofPiece? = some s.flags := by
    rw [List.mapM_map]
    exact s.mapM_ofPiece?_pieces
  rw [ofText?, htext]
  by_cases hne : s.pieces.map String.toList = []
  · rw [hne] at hflags ⊢
    have hnone : [] = s.flags := Option.some.inj hflags
    have hunion := s.unionAll_flags
    rw [← hnone] at hunion
    exact congrArg some hunion
  · have htrim := map_trim_splitOnChar hne hpieces (by decide : IsBlankText []) (by simp)
    rw [List.nil_append] at htrim
    have hmapM : ∀ l : List (List Char), l.mapM (fun p => ofPiece? (trim p)) =
        (l.map trim).mapM ofPiece? := fun l => by rw [List.mapM_map]; rfl
    rw [if_neg (not_isBlankText_intercalate hne hpieces), hmapM, htrim, hflags, Option.map_some,
      s.unionAll_flags]

end Style

end WordTex
