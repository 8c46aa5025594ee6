import WordTex.Proofs.FieldEvents

/-! # Fields as brackets

The events of a paragraph are read as brackets: a field is what stands between its opening and its
closing mark. A closing mark may have no field, and fields may be left open at the end. -/
namespace WordTex

/-- A part of a paragraph or of a field. A field that is not closed goes on to the end. -/
inductive FieldPart where
  | node (n : Node)
  | instruction (text : String)
  | separator
  | strayEnd
  | field (closed : Bool) (parts : List FieldPart)

namespace FieldPart

mutual

def events : FieldPart → List FieldEvent
  | node n => [.node n]
  | instruction text => [.instruction text]
  | separator => [.mark .separator]
  | strayEnd => [.mark .closing]
  | field closed parts =>
    .mark .opening :: eventsAll parts ++ if closed then [.mark .closing] else []

def eventsAll : List FieldPart → List FieldEvent
  | [] => []
  | p :: ps => p.events ++ eventsAll ps

end

mutual

/-- An end without a field stands `outside` of all fields, and what is open is the `last` part. -/
def Matched (outside last : Bool) : FieldPart → Prop
  | strayEnd => outside = true
  | field true parts => MatchedAll false false parts
  | field false parts => last = true ∧ MatchedAll false true parts
  | _ => True

def MatchedAll (outside last : Bool) : List FieldPart → Prop
  | [] => True
  | p :: ps => p.Matched outside (last && ps.isEmpty) ∧ MatchedAll outside last ps

end

variable {free last : Bool} {ps qs : List FieldPart}

@[simp] theorem eventsAll_append (ps qs : List FieldPart) :
    eventsAll (ps ++ qs) = eventsAll ps ++ eventsAll qs := by
  induction ps with
  | nil => rfl
  | cons p ps ih => simp [eventsAll, ih]

theorem Matched.mono {p : FieldPart} (h : p.Matched free false) : p.Matched free last := by
  cases p with
  | field closed parts =>
    cases closed with
    | true => exact h
    | false => simp [Matched] at h
  | strayEnd => exact h
  | _ => trivial

/-- What stands inside of a field may stand outside as well. -/
theorem Matched.outside {p : FieldPart} (h : p.Matched false last) : p.Matched free last := by
  cases p with
  | field closed parts => cases closed <;> exact h
  | strayEnd => simp [Matched] at h
  | _ => trivial

theorem MatchedAll.outside (h : MatchedAll false last ps) : MatchedAll free last ps := by
  induction ps with
  | nil => trivial
  | cons p ps ih => exact ⟨h.1.outside, ih h.2⟩

theorem MatchedAll.append (hps : MatchedAll free false ps) (hqs : MatchedAll free last qs) :
    MatchedAll free last (ps ++ qs) := by
  induction ps with
  | nil => exact hqs
  | cons p ps ih => exact ⟨hps.1.mono, ih hps.2⟩

theorem matchedAll_singleton {p : FieldPart} :
    MatchedAll free last [p] ↔ p.Matched free last := by
  simp [MatchedAll]

end FieldPart

/-- Parts that are complete, and those of the open fields, of which the innermost comes first. -/
structure OpenParts where
  complete : List FieldPart
  opened : List (List FieldPart)

namespace OpenParts

open FieldPart

def start : OpenParts := ⟨[], []⟩

/-- A part goes to the innermost open field. -/
def push (z : OpenParts) (p : FieldPart) : OpenParts :=
  match z.opened with
  | [] => { z with complete := z.complete ++ [p] }
  | ps :: outer => { z with opened := (ps ++ [p]) :: outer }

def next (z : OpenParts) : FieldEvent → OpenParts
  | .node n => z.push (.node n)
  | .instruction text => z.push (.instruction text)
  | .mark .opening => { z with opened := [] :: z.opened }
  | .mark .separator => z.push .separator
  | .mark .closing =>
    match z.opened with
    | [] => z.push .strayEnd
    | ps :: outer => push { z with opened := outer } (.field true ps)

def read (z : OpenParts) (es : List FieldEvent) : OpenParts := es.foldl next z

/-- Open fields one inside the other, each the last part of the one around it; `inner` are the last
parts of the innermost. -/
def nest (inner : List FieldPart) : List (List FieldPart) → List FieldPart
  | [] => inner
  | ps :: outer => nest [.field false (ps ++ inner)] outer

/-- The parts if nothing comes any more. -/
def close (z : OpenParts) : List FieldPart := z.complete ++ nest [] z.opened

/-- The events read so far. -/
def events (z : OpenParts) : List FieldEvent :=
  eventsAll z.complete ++ z.opened.reverse.flatMap fun ps => .mark .opening :: eventsAll ps

def Matched (z : OpenParts) : Prop :=
  MatchedAll true false z.complete ∧ ∀ ps ∈ z.opened, MatchedAll false false ps

theorem read_append (z : OpenParts) (es es' : List FieldEvent) :
    z.read (es ++ es') = (z.read es).read es' :=
  List.foldl_append

theorem events_push (z : OpenParts) (p : FieldPart) : (z.push p).events = z.events ++ p.events := by
  rw [push]
  rcases hopened : z.opened with _ | ⟨ps, outer⟩
  · simp [events, hopened, eventsAll]
  · simp [events, hopened, eventsAll]

theorem events_next (z : OpenParts) (e : FieldEvent) : (z.next e).events = z.events ++ [e] := by
  cases e with
  | node n => exact z.events_push (.node n)
  | instruction text => exact z.events_push (.instruction text)
  | mark m =>
    cases m with
    | opening => simp [next, events, eventsAll]
    | separator => exact z.events_push .separator
    | closing =>
      rw [next]
      rcases hopened : z.opened with _ | ⟨ps, outer⟩
      · exact z.events_push .strayEnd
      · rw [events_push]
        simp [events, hopened, FieldPart.events]

theorem events_read (z : OpenParts) (es : List FieldEvent) : (z.read es).events = z.events ++ es := by
  induction es generalizing z with
  | nil => simp [read]
  | cons e es ih =>
    have hrest := ih (z.next e)
    rw [events_next, List.append_assoc] at hrest
    exact hrest

theorem matched_push {z : OpenParts} (h : z.Matched) {p : FieldPart}
    (hp : p.Matched z.opened.isEmpty false) : (z.push p).Matched := by
  rw [push]
  rcases hopened : z.opened with _ | ⟨ps, outer⟩
  · rw [hopened] at hp
    exact ⟨h.1.append (matchedAll_singleton.mpr hp), by simp⟩
  · rw [hopened] at hp
    refine ⟨h.1, fun qs hqs => ?_⟩
    rcases List.mem_cons.mp hqs with rfl | hqs
    · exact (h.2 ps (by simp [hopened])).append (matchedAll_singleton.mpr hp)
    · exact h.2 qs (by simp [hopened, hqs])

theorem matched_next {z : OpenParts} (h : z.Matched) (e : FieldEvent) : (z.next e).Matched := by
  cases e with
  | node n => exact matched_push h trivial
  | instruction text => exact matched_push h trivial
  | mark m =>
    cases m with
    | opening =>
      refine ⟨h.1, fun ps hps => ?_⟩
      rcases List.mem_cons.mp hps with rfl | hps
      · trivial
      · exact h.2 ps hps
    | separator => exact matched_push h trivial
    | closing =>
      rw [next]
      rcases hopened : z.opened with _ | ⟨ps, outer⟩
      · exact matched_push h (by simp [hopened, FieldPart.Matched])
      · have hinner := h.2 ps (by simp [hopened])
        exact matched_push (z := { z with opened := outer })
          ⟨h.1, fun qs hqs => h.2 qs (by simp [hopened, hqs])⟩ hinner

theorem matched_read {z : OpenParts} (h : z.Matched) (es : List FieldEvent) : (z.read es).Matched := by
  induction es generalizing z with
  | nil => exact h
  | cons e es ih => exact ih (matched_next h e)

theorem eventsAll_nest (inner : List FieldPart) (opened : List (List FieldPart)) :
    eventsAll (nest inner opened) =
      (opened.reverse.flatMap fun ps => .mark .opening :: eventsAll ps) ++ eventsAll inner := by
  induction opened generalizing inner with
  | nil => rfl
  | cons ps outer ih => simp [nest, ih, eventsAll, FieldPart.events]

theorem matchedAll_nest {opened : List (List FieldPart)}
    (hopened : ∀ ps ∈ opened, MatchedAll false false ps) {inner : List FieldPart}
    (hinner : MatchedAll false true inner) : MatchedAll false true (nest inner opened) := by
  induction opened generalizing inner with
  | nil => exact hinner
  | cons ps outer ih =>
    refine ih (fun qs hqs => hopened qs (List.mem_cons_of_mem ps hqs)) ?_
    exact matchedAll_singleton.mpr ⟨rfl, (hopened ps List.mem_cons_self).append hinner⟩

theorem eventsAll_close (z : OpenParts) : eventsAll z.close = z.events := by
  simp [close, eventsAll_nest, events, eventsAll]

theorem matchedAll_close {z : OpenParts} (h : z.Matched) : MatchedAll true true z.close :=
  h.1.append (MatchedAll.outside (matchedAll_nest h.2 (by simp [MatchedAll])))

def pushAll (z : OpenParts) (ps : List FieldPart) : OpenParts := ps.foldl push z

@[simp] theorem isEmpty_opened_push (z : OpenParts) (p : FieldPart) :
    (z.push p).opened.isEmpty = z.opened.isEmpty := by
  rw [push]
  split <;> simp [*]

theorem pushAll_of_opened (complete : List FieldPart) (ps : List FieldPart)
    (outer : List (List FieldPart)) (qs : List FieldPart) :
    pushAll ⟨complete, ps :: outer⟩ qs = ⟨complete, (ps ++ qs) :: outer⟩ := by
  induction qs generalizing ps with
  | nil => simp [pushAll]
  | cons q qs ih =>
    have hrest := ih (ps ++ [q])
    rw [List.append_assoc, List.singleton_append] at hrest
    exact hrest

theorem pushAll_of_complete (complete qs : List FieldPart) :
    pushAll ⟨complete, []⟩ qs = ⟨complete ++ qs, []⟩ := by
  induction qs generalizing complete with
  | nil => simp [pushAll]
  | cons q qs ih =>
    have hrest := ih (complete ++ [q])
    rw [List.append_assoc, List.singleton_append] at hrest
    exact hrest

/-- A field that is never closed is the last part of what is around it. -/
theorem close_push_field (z : OpenParts) (ps : List FieldPart) :
    (z.push (.field false ps)).close = close { z with opened := ps :: z.opened } := by
  rw [push]
  rcases hopened : z.opened with _ | ⟨qs, outer⟩
  · simp [close, nest]
  · simp [close, nest]

mutual

theorem read_events (z : OpenParts) :
    ∀ p : FieldPart, p.Matched z.opened.isEmpty false → z.read p.events = z.push p
  | .node n, _ => rfl
  | .instruction text, _ => rfl
  | .separator, _ => rfl
  | .strayEnd, h => by
    have hopened : z.opened = [] := List.isEmpty_iff.mp h
    simp [FieldPart.events, read, next, hopened]
  | .field true ps, h => by
    have hinner := read_eventsAll ⟨z.complete, [] :: z.opened⟩ ps h
    rw [pushAll_of_opened, List.nil_append] at hinner
    have hevents : z.read (FieldPart.field true ps).events =
        (read ⟨z.complete, [] :: z.opened⟩ (eventsAll ps)).next (.mark .closing) := by
      simp [FieldPart.events, read, next]
    rw [hevents, hinner]
    rfl
  | .field false ps, h => by simp [FieldPart.Matched] at h

theorem read_eventsAll (z : OpenParts) : ∀ ps : List FieldPart,
    MatchedAll z.opened.isEmpty false ps → z.read (eventsAll ps) = z.pushAll ps
  | [], _ => rfl
  | p :: ps, h => by
    have hpart := read_events z p (by simpa using h.1)
    have hrest := read_eventsAll (z.push p) ps (by simpa using h.2)
    rw [eventsAll, read_append, hpart, hrest]
    rfl

end

mutual

theorem close_read_events (z : OpenParts) :
    ∀ p : FieldPart, p.Matched z.opened.isEmpty true → (z.read p.events).close = (z.push p).close
  | .node n, _ => rfl
  | .instruction text, _ => rfl
  | .separator, _ => rfl
  | .strayEnd, h => by rw [read_events z .strayEnd h]
  | .field true ps, h => by rw [read_events z (.field true ps) h]
  | .field false ps, h => by
    have hinner := close_read_eventsAll ⟨z.complete, [] :: z.opened⟩ ps h.2
    rw [pushAll_of_opened, List.nil_append] at hinner
    have hevents : z.read (FieldPart.field false ps).events =
        read ⟨z.complete, [] :: z.opened⟩ (eventsAll ps) := by
      simp [FieldPart.events, read, next]
    rw [hevents, hinner, close_push_field]

theorem close_read_eventsAll (z : OpenParts) : ∀ ps : List FieldPart,
    MatchedAll z.opened.isEmpty true ps → (z.read (eventsAll ps)).close = (z.pushAll ps).close
  | [], _ => rfl
  | [p], h => by
    rw [eventsAll, eventsAll, List.append_nil]
    exact close_read_events z p h.1
  | p :: q :: ps, h => by
    have hpart := read_events z p (by simpa using h.1)
    have hrest := close_read_eventsAll (z.push p) (q :: ps) (by simpa using h.2)
    rw [eventsAll, read_append, hpart, hrest]
    rfl

end

end OpenParts

namespace FieldPart

/-- The parts that a list of events is made of. -/
def ofEvents (es : List FieldEvent) : List FieldPart := (OpenParts.start.read es).close

theorem eventsAll_ofEvents (es : List FieldEvent) : eventsAll (ofEvents es) = es := by
  rw [ofEvents, OpenParts.eventsAll_close, OpenParts.events_read]
  simp [OpenParts.events, OpenParts.start, eventsAll]

theorem matchedAll_ofEvents (es : List FieldEvent) : MatchedAll true true (ofEvents es) :=
  OpenParts.matchedAll_close
    (OpenParts.matched_read ⟨by simp [OpenParts.start, MatchedAll], by simp [OpenParts.start]⟩ es)

/-- Marks can be matched in one way only. -/
theorem ofEvents_eventsAll {ps : List FieldPart} (h : MatchedAll true true ps) :
    ofEvents (eventsAll ps) = ps := by
  rw [ofEvents, OpenParts.close_read_eventsAll .start ps h, OpenParts.start,
    OpenParts.pushAll_of_complete]
  simp [OpenParts.close, OpenParts.nest]

end FieldPart

end WordTex
