import WordTex.Proofs.MarkPaths
import WordTex.Proofs.ReadingSuccess

/-! # Reading stops at the first unknown mark

Each reader has a list of marks, in the order in which it meets them. It fails at the first of them
that is unknown, with the path that leads there, and if all are known it succeeds. -/
namespace WordTex

open DocumentReading ReadingState

namespace MarkPlace

def IsKnown (m : MarkPlace) : Prop := m.type ∈ ["begin", "separate", "end"]

instance (m : MarkPlace) : Decidable m.IsKnown := inferInstanceAs (Decidable (_ ∈ _))

def firstUnknown? (ms : List MarkPlace) : Option MarkPlace := ms.find? fun m => ¬ m.IsKnown

theorem firstUnknown?_append (ms ms' : List MarkPlace) :
    firstUnknown? (ms ++ ms') = (firstUnknown? ms).or (firstUnknown? ms') :=
  List.find?_append

end MarkPlace

open MarkPlace

section

variable {σ γ α β : Type}

/-- Reading fails at the first unknown one of these marks, with an error that depends on a part of the
state. If there is none it succeeds, and that part of the state is as it was. -/
structure StopsAt (part : σ → γ) (errorAt : γ → MarkPlace → ReadError)
    (x : ExceptT ReadError (StateM σ) α) (ms : List MarkPlace) : Prop where
  runs : ∀ {s a t}, Runs x s a t → firstUnknown? ms = none ∧ part t = part s
  fails : ∀ {s e t}, Fails x s e t → ∃ m, firstUnknown? ms = some m ∧ e = errorAt (part s) m

namespace StopsAt

variable {part : σ → γ} {errorAt : γ → MarkPlace → ReadError} {ms ms' : List MarkPlace}

theorem modifyGet {f : σ → α × σ} (h : ∀ s, part (f s).2 = part s) :
    StopsAt part errorAt (modifyGet f : ExceptT ReadError (StateM σ) α) [] where
  runs {s _ _} hrun := ⟨rfl, (congrArg (fun r => part r.2) (runs_modifyGet.mp hrun)).trans (h s)⟩
  fails hfails := (not_fails_modifyGet hfails).elim

theorem pure (a : α) : StopsAt part errorAt (Pure.pure a : ExceptT ReadError (StateM σ) α) [] where
  runs hrun := ⟨rfl, congrArg part (runs_pure.mp hrun).2⟩
  fails hfails := (not_fails_pure hfails).elim

theorem bind {x : ExceptT ReadError (StateM σ) α} {f : α → ExceptT ReadError (StateM σ) β}
    (hx : StopsAt part errorAt x ms) (hf : ∀ a, StopsAt part errorAt (f a) ms') :
    StopsAt part errorAt (x >>= f) (ms ++ ms') where
  runs hrun := by
    obtain ⟨a, t, hfirst, hrest⟩ := runs_bind.mp hrun
    obtain ⟨hnone, ht⟩ := hx.runs hfirst
    obtain ⟨hnone', hu⟩ := (hf a).runs hrest
    rw [firstUnknown?_append, hnone, hnone']
    exact ⟨rfl, hu.trans ht⟩
  fails hfails := by
    rw [firstUnknown?_append]
    rcases fails_bind.mp hfails with hfirst | ⟨a, t, hfirst, hrest⟩
    · obtain ⟨m, hm, rfl⟩ := hx.fails hfirst
      exact ⟨m, by rw [hm, Option.some_or], rfl⟩
    · obtain ⟨hnone, ht⟩ := hx.runs hfirst
      obtain ⟨m, hm, rfl⟩ := (hf a).fails hrest
      exact ⟨m, by rw [hnone, hm, Option.none_or], by rw [ht]⟩

/-- A last step without marks. -/
theorem bind_pure {x : ExceptT ReadError (StateM σ) α} {f : α → ExceptT ReadError (StateM σ) β}
    (hx : StopsAt part errorAt x ms) (hf : ∀ a, StopsAt part errorAt (f a) []) :
    StopsAt part errorAt (x >>= f) ms := by
  have h := hx.bind hf
  rwa [List.append_nil] at h

theorem mapM {f : α → ExceptT ReadError (StateM σ) β} {marks : α → List MarkPlace}
    (as : List α) (hf : ∀ a, StopsAt part errorAt (f a) (marks a)) :
    StopsAt part errorAt (as.mapM f) (as.flatMap marks) := by
  induction as with
  | nil => exact pure []
  | cons a as ih =>
    rw [List.mapM_cons, List.flatMap_cons]
    exact (hf a).bind fun b => ih.bind_pure fun bs => pure (b :: bs)

theorem foldlM {f : β → α → ExceptT ReadError (StateM σ) β} {marks : α → List MarkPlace}
    (as : List α) (b : β) (hf : ∀ b a, StopsAt part errorAt (f b a) (marks a)) :
    StopsAt part errorAt (as.foldlM f b) (as.flatMap marks) := by
  induction as generalizing b with
  | nil => exact pure b
  | cons a as ih =>
    rw [List.foldlM_cons, List.flatMap_cons]
    exact (hf b a).bind fun c => ih c

end StopsAt

end

/-- The marks that an item of a run is. -/
def RunItem.marks : RunItem → List MarkPlace
  | fieldMark type => [⟨[], type⟩]
  | _ => []

/-- The marks in a child of a paragraph, by what it is read as. -/
def ParagraphItem.marks (child : Element) : ParagraphItem → List MarkPlace
  | run => child.marksUnder Element.ownMark
  | hyperlink => child.marksUnder Element.marksOfRun
  | _ => []

namespace Reading

variable {α : Type}

/-- The part and the path of the element that is read. -/
def here (s : ReadingState) : String × List String := (s.part, s.path)

variable {x : Reading α} {ms : List MarkPlace} (notes : Notes)

end Reading

namespace DocumentReading

variable {α : Type} (part : String) (root : Element)

variable {part root}

end DocumentReading

end WordTex
