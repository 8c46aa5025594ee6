import WordTex.Proofs.ParagraphEvents

/-! # The styles that events are read with

A run and a paragraph are read child by child, and properties set styles for the children behind them.
So a child is read with the styles that were there before and those of the properties in front of it.
Where a list of children is cut, the second part is read with what the first part adds. -/
namespace WordTex

section

variable {σ α β : Type} {scan : σ → List α → List β} {read : σ → α → List β} {step : σ → α → σ}
  (hnil : ∀ s, scan s [] = []) (hcons : ∀ s a as, scan s (a :: as) = read s a ++ scan (step s a) as)

include hnil hcons

/-- A scan reads each item from the state that the items in front of it lead to. -/
theorem scan_eq_flatMap (s : σ) (as : List α) :
    scan s as = as.zipIdx.flatMap fun (a, i) => read ((as.take i).foldl step s) a := by
  induction as generalizing s with
  | nil => exact hnil s
  | cons a as ih =>
    have hshift : as.zipIdx 1 = as.zipIdx.map fun (b, i) => (b, i + 1) := List.zipIdx_succ
    rw [hcons, ih, List.zipIdx_cons, List.flatMap_cons, hshift, List.flatMap_map]
    rfl

theorem scan_append (s : σ) (as bs : List α) :
    scan s (as ++ bs) = scan s as ++ scan (as.foldl step s) bs := by
  induction as generalizing s with
  | nil => rw [hnil, List.nil_append, List.nil_append, List.foldl_nil]
  | cons a as ih => rw [List.cons_append, hcons, hcons, ih, List.append_assoc, List.foldl_cons]

end

namespace Style

theorem unionAll_append (ss ts : List Style) :
    unionAll (ss ++ ts) = (unionAll ss).union (unionAll ts) := by
  induction ss with
  | nil => exact (empty_union _).symm
  | cons s ss ih => rw [List.cons_append, unionAll_cons, ih, unionAll_cons, union_assoc]

/-- What adds no style may be left out. -/
theorem unionAll_map_of_filter {α : Type} {p : α → Bool} {f g : α → Style}
    (h : ∀ a, f a = if p a then g a else .empty) (as : List α) :
    unionAll (as.map f) = unionAll ((as.filter p).map g) := by
  induction as with
  | nil => rfl
  | cons a as ih =>
    rw [List.map_cons, unionAll_cons, ih, h]
    cases hp : p a with
    | true => rw [List.filter_cons_of_pos hp, List.map_cons, unionAll_cons, if_pos rfl]
    | false =>
      rw [List.filter_cons_of_neg (by simp [hp]), if_neg Bool.false_ne_true, empty_union]

/-- The styles that are taken along are all that was added. -/
theorem foldl_union {α : Type} (added : α → Style) (style : Style) (as : List α) :
    as.foldl (fun s a => s.union (added a)) style = style.union (.unionAll (as.map added)) := by
  induction as generalizing style with
  | nil => exact (union_empty style).symm
  | cons a as ih => rw [List.foldl_cons, ih, List.map_cons, unionAll_cons, union_assoc]

end Style

theorem Element.runItem_eq_properties {child : Element} :
    child.runItem = .properties ↔ child.localName = "rPr" := by
  rw [runItem]
  split <;> simp_all

theorem Element.paragraphItem_eq_properties {child : Element} :
    child.paragraphItem = .properties ↔ child.localName = "pPr" := by
  rw [paragraphItem]
  split <;> simp_all

theorem runChildStyle_eq (child : Element) :
    runChildStyle child = if child.localName == "rPr" then child.propertyStyles else .empty := by
  simp only [beq_iff_eq, ← Element.runItem_eq_properties]
  rw [runChildStyle]
  cases child.runItem <;> rfl

theorem paragraphChildStyle_eq (child : Element) : paragraphChildStyle child =
    if child.localName == "pPr" then child.propertyStyles else .empty := by
  simp only [beq_iff_eq, ← Element.paragraphItem_eq_properties]
  rw [paragraphChildStyle]
  cases child.paragraphItem <;> rfl

variable (notes : Notes) (style : Style)

theorem runEvents_eq_flatMap (children : List Element) :
    runEvents notes style children = children.zipIdx.flatMap fun (e, j) =>
      runChildEvents notes (style.union (.unionAll ((children.take j).map runChildStyle))) e := by
  simp only [← Style.foldl_union]
  exact scan_eq_flatMap (fun _ => rfl) (fun _ _ _ => rfl) style children

theorem runEvents_append (front back : List Element) : runEvents notes style (front ++ back) =
    runEvents notes style front ++ runEvents notes (style.union (runStyle front)) back := by
  rw [runStyle, ← Style.foldl_union]
  exact scan_append (fun _ => rfl) (fun _ _ _ => rfl) style front back

theorem paragraphEvents_eq_flatMap (children : List Element) :
    paragraphEvents notes style children = children.zipIdx.flatMap fun (child, i) =>
      paragraphChildEvents notes
        (style.union (.unionAll ((children.take i).map paragraphChildStyle))) child := by
  simp only [← Style.foldl_union]
  exact scan_eq_flatMap (fun _ => rfl) (fun _ _ _ => rfl) style children

theorem paragraphEvents_append (front back : List Element) :
    paragraphEvents notes style (front ++ back) = paragraphEvents notes style front ++
      paragraphEvents notes (style.union (paragraphStyle front)) back := by
  rw [paragraphStyle, ← Style.foldl_union]
  exact scan_append (fun _ => rfl) (fun _ _ _ => rfl) style front back

end WordTex
