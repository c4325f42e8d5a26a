import ScriptIr.Lower.Expression

/-!
# Segments of array literals

An array literal is cut into segments: the runs of elements between spreads, and the spreads. Each
segment becomes an array, and several arrays are joined.

* `arrayCode_eq`: the code of the segments, one after the other, and the code that joins them.
-/
namespace ScriptIr.Lower

open Code

/-- A part of an array literal: elements between spreads, or a spread. -/
inductive Segment where
  | run (items : List ExprCode)
  | spread (code : ExprCode)

variable (item : ExprCode)

/-- Puts an element before segments. It belongs to the first one unless that is a spread. -/
def addItem : List Segment → List Segment
  | .run items :: segments => .run (item :: items) :: segments
  | segments => .run [item] :: segments

def cut : List Element → List Segment
  | [] => []
  | .hole :: elements => addItem (instCode .undefined) (cut elements)
  | .value code :: elements => addItem code (cut elements)
  | .spread code :: elements => .spread code :: cut elements

def Segment.code : Segment → ExprCode
  | .run items => argumentsCode items
  | .spread code => fun ctx block => do
    let r ← code ctx block
    let array ← loadGlobal ctx r.block "Array"
    let convert ← getNamed ctx r.block array "from"
    return ⟨r.block, ← callWith ctx r.block convert array [r.value]⟩

/-- Joins arrays. -/
def joinCode (ctx : Ctx) (block : BlockId) : List InstId → Emit Lowered
  | [] => return ⟨block, ← emit ctx block (.array [])⟩
  | first :: rest => concatCode ctx block first rest

def segmentedCode (segments : List Segment) : ExprCode := fun ctx block => do
  let (block, ids) ← evalList ctx block (segments.map Segment.code)
  joinCode ctx block ids

def RunsApart : List Segment → Prop
  | [] => True
  | .spread _ :: segments => RunsApart segments
  | .run items :: segments =>
    items ≠ [] ∧ (∀ items' rest, segments ≠ .run items' :: rest) ∧ RunsApart segments

theorem runsApart_addItem {segments : List Segment} (h : RunsApart segments) :
    RunsApart (addItem item segments) := by
  unfold addItem
  split
  · exact ⟨List.cons_ne_nil _ _, h.2⟩
  · next hother => exact ⟨List.cons_ne_nil _ _, hother, h⟩

theorem runsApart_cut (elements : List Element) : RunsApart (cut elements) := by
  induction elements with
  | nil => trivial
  | cons e elements ih =>
    cases e with
    | hole => exact runsApart_addItem _ ih
    | value code => exact runsApart_addItem code ih
    | spread code => exact ih

variable {ctx : Ctx}

def resume (ctx : Ctx) (block : BlockId) (values : List InstId) : List Segment →
    Emit (BlockId × List InstId)
  | .run items :: segments => do
    let (block, rest) ← evalList ctx block items
    let id ← emit ctx block (.array (values ++ rest))
    let (block, ids) ← evalList ctx block (segments.map Segment.code)
    return (block, id :: ids)
  | segments => do
    let p ← flush ctx block { pending := values }
    let (block, ids) ← evalList ctx block (segments.map Segment.code)
    return (block, p.done ++ ids)

variable (block : BlockId)

theorem flush_eq (done values : List InstId) : flush ctx block ⟨done, values⟩ = (do
      let p ← flush ctx block { pending := values }
      return { done := done ++ p.done }) := by
  unfold flush
  cases values <;> simp

theorem resume_nil (segments : List Segment) :
    resume ctx block [] segments = evalList ctx block (segments.map Segment.code) := by
  unfold resume
  split
  · simp [evalList, Segment.code, argumentsCode]
  · simp [flush]

/-- One more element is evaluated before the rest of its run. -/
theorem resume_addItem (values : List InstId) (segments : List Segment) :
    resume ctx block values (addItem item segments) = (do
      let r ← item ctx block
      resume ctx r.block (values ++ [r.value]) segments) := by
  unfold addItem
  split
  · simp [resume, evalList]
  · next segments hother =>
    rw [resume]
    simp only [evalList, bind_assoc, pure_bind]
    refine bind_congr fun r => ?_
    unfold resume
    split
    · exact absurd rfl (hother _ _)
    · simp [flush]

/-- The pieces after some elements are the arrays of their segments. -/
theorem evalElements_eq (elements : List Element) (block : BlockId) (done values : List InstId) : (do
      let (block, p) ← evalElements ctx block ⟨done, values⟩ elements
      let p ← flush ctx block p
      return (block, p.done)) = (do
      let (block, ids) ← resume ctx block values (cut elements)
      return (block, done ++ ids)) := by
  induction elements generalizing block done values with
  | nil =>
    simp only [evalElements, pure_bind, flush_eq block done, bind_assoc, cut, resume, List.map_nil, evalList,
      List.append_nil]
  | cons e elements ih =>
    cases e with
    | hole =>
      simp only [cut, resume_addItem, evalElements, instCode, bind_assoc, pure_bind]
      exact bind_congr fun v => ih _ _ _
    | value code =>
      simp only [cut, resume_addItem, evalElements, bind_assoc]
      exact bind_congr fun r => ih _ _ _
    | spread code =>
      simp only [cut, evalElements, flush_eq block done, resume, List.map_cons, evalList, Segment.code,
        bind_assoc, pure_bind]
      refine bind_congr fun p => bind_congr fun r => bind_congr fun array => bind_congr fun convert =>
        bind_congr fun piece => ?_
      rw [ih, resume_nil]
      simp

/-- The last segment ends with the array. -/
theorem closeSegments_eq (p : Segments) : (do
      let (first, rest) ← closeSegments ctx block p
      concatCode ctx block first rest) = (do
      let p ← flush ctx block p
      joinCode ctx block p.done) := by
  obtain ⟨done, pending⟩ := p
  unfold closeSegments flush
  rcases done with _ | ⟨first, _ | ⟨second, rest⟩⟩ <;> cases pending <;> simp [joinCode, concatCode]

theorem arrayCode_eq (elements : List Element) : arrayCode elements = segmentedCode (cut elements) := by
  funext ctx block
  have hpieces := @evalElements_eq ctx elements block [] []
  simp only [resume_nil, List.nil_append] at hpieces
  calc
    arrayCode elements ctx block = (do
        let r ← evalElements ctx block {} elements
        let p ← flush ctx r.1 r.2
        joinCode ctx r.1 p.done) := bind_congr fun r => closeSegments_eq r.1 r.2
    _ = (do
        let r ← evalElements ctx block {} elements
        let p ← flush ctx r.1 r.2
        return (r.1, p.done)) >>= fun r => joinCode ctx r.1 r.2 := by simp only [bind_assoc, pure_bind]
    _ = segmentedCode (cut elements) ctx block := by
      rw [hpieces]
      simp only [segmentedCode, bind_assoc, pure_bind]

end ScriptIr.Lower
