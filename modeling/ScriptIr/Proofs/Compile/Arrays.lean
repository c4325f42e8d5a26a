import ScriptIr.Json.Value
import ScriptIr.Proofs.Lower.Segments
import ScriptIr.Proofs.Semantics.Evaluated

/-!
# Array literals

The code of an array literal is the code of its segments, and the array has every element.
-/
namespace ScriptIr

namespace Run

open Lower ScriptIr.Tree

variable {V σ : Type}

/-- Arrays are read as lists: an array is the list of its elements, `Array.from` keeps the items of a
value, and `Array.prototype.concat` appends them. -/
structure ListReading (S : Scene V σ) (list : List V → V) (items : V → List V) : Prop where
  array : ∀ vs, S.perform (.array vs) = pure (list vs)
  items_list : ∀ vs, items (list vs) = vs
  spread : ∀ v, S.spread v = pure (list (items v))
  concat : ∀ first second rest, S.concat first (second :: rest) =
    pure (list (items first ++ (second :: rest).flatMap items))

/-- The items that elements stand for, evaluated from left to right. -/
def evalItems (S : Scene V σ) (items : V → List V) : List (Option Expression) → (n : Nat) → StateM σ (List V)
  | [], _ => return []
  | none :: es, n => do
    let v ← S.perform .undefined
    return v :: (← evalItems S items es n)
  | some e :: es, n => do
    match evalSpread? S e with
    | some argument =>
      let v ← argument n
      return items v ++ (← evalItems S items es (n + e.functions.length))
    | none =>
      let v ← evalExpression S e n
      return v :: (← evalItems S items es (n + e.functions.length))

section Reading

variable {S : Scene V σ} {list : List V → V} {items : V → List V} (h : ListReading S list items)

include h

theorem ListReading.concat_lists (xs : List V) (xss : List (List V)) :
    S.concat (list xs) (xss.map list) = pure (list (xs ++ xss.flatten)) := by
  cases xss with
  | nil => simp [Scene.concat]
  | cons ys xss =>
    rw [List.map_cons, h.concat]
    simp [h.items_list, List.flatMap_map, List.flatMap_id']

/-- The run at the end is one more list, unless it is empty. -/
theorem ListReading.flush (xss : List (List V)) (vs : List V) :
    ∃ yss, S.flush ⟨xss.map list, vs⟩ = pure ⟨(xss ++ yss).map list, []⟩ ∧ yss.flatten = vs := by
  cases vs with
  | nil => exact ⟨[], by simp [Scene.flush], rfl⟩
  | cons v vs => exact ⟨[v :: vs], by simp [Scene.flush, h.array], by simp⟩

theorem ListReading.join (xss : List (List V)) (vs : List V) :
    S.join ⟨xss.map list, vs⟩ = pure (list (xss.flatten ++ vs)) := by
  obtain ⟨yss, hflush, hyss⟩ := h.flush xss vs
  cases xss with
  | nil => exact h.array vs
  | cons xs xss =>
    show (do S.concat (list xs) (← S.flush ⟨(xs :: xss).map list, vs⟩).done.tail) = _
    rw [hflush, pure_bind]
    exact (h.concat_lists xs (xss ++ yss)).trans (by simp [hyss])

theorem ListReading.elements (es : List (Option Expression)) (n : Nat) (xss : List (List V)) (vs : List V) :
    (do S.join (← evalElements S es n ⟨xss.map list, vs⟩)) = (do
      let ws ← evalItems S items es n
      return list (xss.flatten ++ vs ++ ws)) := by
  induction es generalizing n xss vs with
  | nil => simp [evalElements, evalItems, h.join]
  | cons o es ih =>
    cases o with
    | none => simp [evalElements, evalItems, ih]
    | some e =>
      unfold evalElements evalItems
      cases evalSpread? S e with
      | none => simp [ih]
      | some argument =>
        obtain ⟨yss, hflush, rfl⟩ := h.flush xss vs
        simp only [hflush, h.spread, bind_assoc, pure_bind]
        refine bind_congr fun v => ?_
        have hrest := ih (n + e.functions.length) (xss ++ yss ++ [items v]) []
        rw [List.map_append] at hrest
        exact hrest.trans (by simp)

theorem ListReading.literal (es : List (Option Expression)) (n : Nat) :
    evalExpression S (.array es) n = list <$> evalItems S items es n := by
  rw [map_eq_pure_bind]
  exact h.elements es n [] []

end Reading

/-- **Array literals keep their elements.** The code of an array literal is the code of its segments from
left to right, followed by the code that joins them, and the segments are the longest runs without a
spread and the spreads. Where arrays are read as lists, executing the code evaluates the elements from
left to right, and its value is the list of their items. -/
theorem array_literal_keeps_elements (S : Setting V σ) {list : List V → V} {items : V → List V}
    (hreads : ListReading S.toScene list items) (es : List (Option Expression)) :
    expression (.array es) = segmentedCode (cut (elements es)) ∧ RunsApart (cut (elements es)) ∧
      ExprDoes S (Behaves S.firstId) (expression (.array es))
        (fun n => list <$> evalItems S.toScene items es n) (Expression.array es).functions := by
  refine ⟨Lower.arrayCode_eq _, Lower.runsApart_cut _, ?_⟩
  have hdoes := expression_does (.array es) S
  rwa [funext (hreads.literal es)] at hdoes

def itemsOf : Json.Value → List Json.Value
  | .list items => items
  | _ => []

/-- Every variable holds a list of one text, and reading it is traced. A call appends the items of its
arguments to those of its receiver. -/
def listSetting : Setting Json.Value (List String) where
  act a trace :=
    match a with
    | .global x | .string x => (.text x, trace)
    | .load (.text "Array") => (.text "Array", trace)
    | .load (.text x) => (.list [.text x], trace ++ [x])
    | .getItem _ key => (key, trace)
    | .array vs => (.list vs, trace)
    | .call _ receiver args => (.list (itemsOf receiver ++ (itemsOf args).flatMap itemsOf), trace)
    | _ => (.null, trace)
  test _ trace := (false, trace)
  address x := pure (.text x)
  closure _ _ := pure .null
  place x _ := .text x
  firstId := 0
  fits _ _ := False
  closes _ _ _ h := h.elim

def spreadsAndHole : List (Option Expression) :=
  [some (.identifier { name := "a" }), some (.spread (.identifier { name := "b" }) none), none,
    some (.spread (.identifier { name := "c" }) none)]

theorem spreadsAndHole_kept :
    ExprDoes listSetting (Behaves 0) (expression (.array spreadsAndHole))
        (fun n => .list <$> evalItems listSetting.toScene itemsOf spreadsAndHole n) [] ∧
      evalItems listSetting.toScene itemsOf spreadsAndHole 0 [] =
        ([.list [.text "a"], .text "b", .null, .text "c"], ["a", "b", "c"]) := by
  have hspread (v : Json.Value) : listSetting.spread v = pure (.list (itemsOf v ++ [])) := rfl
  have hreads : ListReading listSetting.toScene .list itemsOf :=
    ⟨fun _ => rfl, fun _ => rfl, fun v => by rw [hspread, List.append_nil], fun _ _ _ => rfl⟩
  exact ⟨(array_literal_keeps_elements listSetting hreads spreadsAndHole).2.2, rfl⟩

end Run

end ScriptIr
