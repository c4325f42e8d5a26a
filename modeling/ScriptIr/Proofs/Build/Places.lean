import ScriptIr.Build

/-!
# Places of results

The results of an input are written to its output stem with an extension put on. The check that
stands before a run compares stems, while setting an extension replaces the part of a name after its
last dot: stems without an extension of their own keep their results apart, and two stems that differ
only in their extensions share them.

* `withExtension_apart`: paths without extensions and with different steps stay apart.
* `checkOutputs_pairwise`: an accepted list has stems with different steps.
-/
namespace ScriptIr.Path

open List

variable {s : Segment} {ss rest : List Segment} {p : Path}

/-! ## Segments -/

theorem segments_ne_nil (cs : List Char) : segments cs ≠ [] := by
  cases cs with
  | nil => simp [segments]
  | cons c cs =>
    unfold segments
    split
    · simp
    · split <;> simp

theorem segments_of_no_slash (h : '/' ∉ s) : segments s = [s] := by
  induction s with
  | nil => rfl
  | cons c s ih =>
    rw [mem_cons, not_or] at h
    rw [segments, if_neg (Ne.symm h.1), ih h.2]

theorem segments_append_slash (h : '/' ∉ s) (rest : List Char) :
    segments (s ++ '/' :: rest) = s :: segments rest := by
  induction s with
  | nil => simp [segments]
  | cons c s ih =>
    rw [mem_cons, not_or] at h
    rw [cons_append, segments, if_neg (Ne.symm h.1), ih h.2]

/-- Segments with slashes between them are found again. -/
theorem segments_intercalate (hne : ss ≠ []) (h : ∀ s ∈ ss, '/' ∉ s) :
    segments (intercalate ['/'] ss) = ss := by
  induction ss with
  | nil => exact absurd rfl hne
  | cons s ss ih =>
    cases ss with
    | nil => simpa [intercalate] using segments_of_no_slash (h s mem_cons_self)
    | cons s' ss =>
      have hstep : intercalate ['/'] (s :: s' :: ss)
          = s ++ '/' :: intercalate ['/'] (s' :: ss) := by
        simp [intercalate]
      rw [hstep, segments_append_slash (h s mem_cons_self),
        ih (by simp) fun x hx => h x (mem_cons_of_mem _ hx)]

theorem no_slash_of_mem_segments {cs : List Char} (h : s ∈ segments cs) : '/' ∉ s := by
  induction cs generalizing s with
  | nil => simp_all [segments]
  | cons c cs ih =>
    unfold segments at h
    split at h
    · rcases mem_cons.mp h with rfl | h
      · exact not_mem_nil
      · exact ih h
    next hc =>
      split at h
      next t ts hts =>
        rcases mem_cons.mp h with rfl | h
        · rw [mem_cons, not_or]
          exact ⟨Ne.symm hc, ih (by rw [hts]; exact mem_cons_self)⟩
        · exact ih (by rw [hts]; exact mem_cons_of_mem _ h)
      next hnil => exact absurd hnil (segments_ne_nil cs)

/-! ## Steps -/

variable (leads : Bool)

theorem stepsFrom_append (ss : List Segment) (s : Segment) : stepsFrom leads (ss ++ [s])
      = stepsFrom leads ss ++ if isStep (leads && ss.isEmpty) s then [s] else [] := by
  induction ss generalizing leads with
  | nil => cases leads <;> simp [stepsFrom]
  | cons t ss ih =>
    have h := ih false
    simp only [Bool.false_and] at h
    simp only [cons_append, stepsFrom, h, isEmpty_cons, Bool.and_false]
    split <;> simp

theorem stepsFrom_trim (ss : List Segment) : stepsFrom leads (trim leads ss) = stepsFrom leads ss := by
  induction ss generalizing leads with
  | nil => rfl
  | cons s ss ih =>
    have h := ih false
    cases ht : trim false ss with
    | nil =>
      rw [ht] at h
      simp only [trim, ht]
      by_cases hs : isStep leads s <;> simp [stepsFrom, hs, ← h]
    | cons t ts =>
      rw [ht] at h
      simp only [trim, ht]
      show (if isStep leads s then s :: stepsFrom false (t :: ts) else stepsFrom false (t :: ts)) = _
      rw [h]
      rfl

/-- What is left after trimming ends in a step. -/
theorem trim_last (ss : List Segment) (init : List Segment) (s : Segment)
    (h : trim leads ss = init ++ [s]) : isStep (leads && init.isEmpty) s = true := by
  induction ss generalizing leads init with
  | nil => simp [trim] at h
  | cons t ss ih =>
    cases ht : trim false ss with
    | nil =>
      simp only [trim, ht] at h
      split at h
      next hs =>
        obtain ⟨rfl, hts⟩ := append_eq_singleton_iff.mp h.symm |>.resolve_right (by simp)
        obtain rfl := singleton_inj.mp hts
        simpa using hs
      next => simp at h
    | cons u us =>
      simp only [trim, ht] at h
      cases init with
      | nil => simp at h
      | cons i init =>
        rw [cons_append, cons.injEq] at h
        have := ih false init (by rw [ht, h.2])
        simpa using this

theorem trim_subset (ss : List Segment) : ∀ s ∈ trim leads ss, s ∈ ss := by
  induction ss generalizing leads with
  | nil => simp [trim]
  | cons t ss ih =>
    intro s hs
    cases ht : trim false ss with
    | nil =>
      simp only [trim, ht] at hs
      split at hs <;> simp_all
    | cons u us =>
      simp only [trim, ht] at hs
      rcases mem_cons.mp hs with rfl | hs
      · exact mem_cons_self
      · exact mem_cons_of_mem _ (ih false s (by rw [ht]; exact hs))

theorem no_slash_of_mem_trimmed (h : s ∈ p.trimmed) : '/' ∉ s := by
  have hbody := trim_subset _ _ s h
  unfold body at hbody
  split at hbody
  · exact no_slash_of_mem_segments (mem_of_mem_tail hbody)
  · exact no_slash_of_mem_segments hbody

theorem steps_eq (p : Path) : p.steps = (p.isAbsolute, stepsFrom (!p.isAbsolute) p.trimmed) := by
  rw [steps, trimmed, stepsFrom_trim]

theorem trim_head {leads : Bool} (h : trim leads ss = s :: rest) : ∃ rest', ss = s :: rest' := by
  cases ss with
  | nil => simp [trim] at h
  | cons t ss =>
    refine ⟨ss, ?_⟩
    cases ht : trim false ss with
    | nil =>
      simp only [trim, ht] at h
      split at h <;> simp_all
    | cons u us => simp_all [trim]

/-- A relative path does not start with an empty segment. -/
theorem trimmed_head (habs : p.isAbsolute = false) (h : p.trimmed = s :: rest) : s ≠ [] := by
  rintro rfl
  obtain ⟨rest', hbody⟩ := trim_head h
  have hseg : segments p.text.toList = [] :: rest' := by
    simpa [body, habs] using hbody
  cases htext : p.text.toList with
  | nil => simp [trimmed, body, habs, htext, segments, trim, isStep] at h
  | cons c cs =>
    rw [htext, segments] at hseg
    split at hseg
    next hc => simp [isAbsolute, htext, hc] at habs
    next => split at hseg <;> simp at hseg

/-- The path that segments are written as has these segments. -/
theorem steps_render (absolute : Bool) (hslash : ∀ t ∈ s :: ss, '/' ∉ t)
    (hhead : absolute = false → s ≠ []) :
    steps ⟨String.ofList (render absolute (s :: ss))⟩ = (absolute, stepsFrom (!absolute) (s :: ss)) := by
  have hseg := segments_intercalate (cons_ne_nil s ss) hslash
  cases absolute with
  | true => simp [steps, isAbsolute, body, render, segments, hseg]
  | false =>
    obtain ⟨c, cs, rfl⟩ := exists_cons_of_ne_nil (hhead rfl)
    have hc : c ≠ '/' := fun h => hslash _ mem_cons_self (by simp [h])
    have hfirst : (intercalate ['/'] ((c :: cs) :: ss)).head? = some c := by
      cases ss <;> simp [intercalate]
    have habs : isAbsolute ⟨String.ofList (render false ((c :: cs) :: ss))⟩ = false := by
      simp only [isAbsolute, render, String.toList_ofList]
      simpa [hfirst] using hc
    simp only [steps, habs, body, Bool.not_false]
    simp only [render, String.toList_ofList, Bool.false_eq_true, if_false, nil_append, hseg]

/-! ## Extensions -/

theorem intercalate_snoc (sep : List Char) (init : List Segment) (s more : Segment) :
    intercalate sep (init ++ [s ++ more]) = intercalate sep (init ++ [s]) ++ more := by
  induction init with
  | nil => simp [intercalate]
  | cons t init ih =>
    cases init with
    | nil => simp [intercalate]
    | cons u init =>
      simp only [cons_append, intercalate_cons_cons] at ih ⊢
      rw [ih]
      simp

theorem withExtension_eq_self (h : p.fileName? = none) (e : String) : p.withExtension e = p := by
  simp [withExtension, cutExtension, setExtension, extension?, h]

theorem last_step_of_no_name (h : p.fileName? = none) {dir : List Segment} (hs : p.steps.2 = dir ++ [s]) :
    s.length ≤ 2 := by
  rw [steps_eq] at hs
  rcases eq_nil_or_concat p.trimmed with hnil | ⟨init, t, ht⟩
  · simp [hnil, stepsFrom] at hs
  · rw [concat_eq_append] at ht
    rw [ht, stepsFrom_append, if_pos (trim_last _ _ init t ht)] at hs
    obtain ⟨-, hst⟩ := append_inj' hs rfl
    obtain rfl := singleton_inj.mp hst
    simp only [fileName?, ht, getLast?_append, getLast?_singleton, Option.some_or,
      Option.filter_some, ite_eq_right_iff, reduceCtorEq, imp_false, Bool.and_eq_true,
      decide_eq_true_eq, not_and, Decidable.not_not] at h
    by_cases hdot : t = ['.']
    · simp [hdot]
    · simp [h hdot]

theorem steps_withExtension {name : Segment} (hname : p.fileName? = some name)
    (hplain : p.extension? = none) (e : String) (hslash : '/' ∉ e.toList) :
    ∃ dir, p.steps = (p.isAbsolute, dir ++ [name])
      ∧ (p.withExtension e).steps = (p.isAbsolute, dir ++ [name ++ '.' :: e.toList]) := by
  have hlast : p.trimmed.getLast? = some name := (Option.filter_eq_some_iff.mp hname).1
  obtain ⟨init, htrim⟩ := getLast?_eq_some_iff.mp hlast
  have hstep := trim_last _ _ init name htrim
  have hne : name ≠ [] := by
    rintro rfl
    simp [isStep] at hstep
  have hlong : name ++ '.' :: e.toList ≠ ['.'] := by
    obtain ⟨c, cs, rfl⟩ := exists_cons_of_ne_nil hne
    simp
  refine ⟨stepsFrom (!p.isAbsolute) init, ?_, ?_⟩
  · rw [steps_eq, htrim, stepsFrom_append, if_pos hstep]
  · -- the stem is the whole name, so the new text is that of the same segments with a longer last one
    have hsplit : (splitName name).1 = name := by
      rw [extension?, hname, Option.bind_some] at hplain
      unfold splitName at hplain ⊢
      dsimp only at hplain ⊢
      split at hplain
      next hb => rw [if_pos hb]
      next => simp at hplain
    have htext : render p.isAbsolute p.trimmed ++ '.' :: e.toList
        = render p.isAbsolute (init ++ [name ++ '.' :: e.toList]) := by
      rw [htrim]
      unfold render
      rw [append_assoc]
      rw [intercalate_snoc]
    have hset : p.withExtension e
        = ⟨String.ofList (render p.isAbsolute (init ++ [name ++ '.' :: e.toList]))⟩ := by
      simp only [withExtension, cutExtension, hplain, setExtension, hname, hsplit, Nat.sub_self,
        Nat.sub_zero, take_length, htext]
    have hsegs : ∀ t ∈ init ++ [name ++ '.' :: e.toList], '/' ∉ t := by
      intro t ht
      rcases mem_append.mp ht with hi | hl
      · exact no_slash_of_mem_trimmed (p := p) (by rw [htrim]; exact mem_append_left _ hi)
      · obtain rfl := mem_singleton.mp hl
        have := no_slash_of_mem_trimmed (p := p) (s := name) (by simp [htrim])
        simp [this, hslash]
    rw [hset]
    cases init with
    | nil =>
      rw [nil_append] at hsegs ⊢
      rw [steps_render _ hsegs (by simp)]
      simp [stepsFrom, isStep, hlong]
    | cons s init =>
      rw [cons_append] at hsegs ⊢
      rw [steps_render _ hsegs fun habs => trimmed_head habs htrim, ← cons_append,
        stepsFrom_append, if_pos]
      simp [isStep, hlong]

/-- A name and the dotless ending behind its last dot are found again. -/
theorem append_dot_inj {n n' e e' : List Char} (he : '.' ∉ e) (he' : '.' ∉ e')
    (h : n ++ '.' :: e = n' ++ '.' :: e') : n = n' ∧ e = e' := by
  rcases append_eq_append_iff.mp h with ⟨as, rfl, hr⟩ | ⟨as, rfl, hr⟩
  · cases as with
    | nil => simpa using hr
    | cons a as =>
      simp only [cons_append, cons.injEq] at hr
      exact absurd (by simp [hr.2]) he
  · cases as with
    | nil => simpa [eq_comm] using hr
    | cons a as =>
      simp only [cons_append, cons.injEq] at hr
      exact absurd (by simp [hr.2]) he'

/-- An ending that a result may have. -/
def Ending (e : String) : Prop := 2 ≤ e.toList.length ∧ '/' ∉ e.toList ∧ '.' ∉ e.toList

theorem withExtension_apart {q : Path} (hp : p.extension? = none) (hq : q.extension? = none)
    (hne : p.steps ≠ q.steps) {e e' : String} (he : Ending e) (he' : Ending e') :
    (p.withExtension e).steps ≠ (q.withExtension e').steps := by
  intro h
  cases hpn : p.fileName? with
  | none =>
    rw [withExtension_eq_self hpn] at h
    cases hqn : q.fileName? with
    | none => exact hne (by rwa [withExtension_eq_self hqn] at h)
    | some name =>
      obtain ⟨dir, -, hs⟩ := steps_withExtension hqn hq e' he'.2.1
      have := last_step_of_no_name hpn (by rw [h, hs])
      have := he'.1
      simp at *
      omega
  | some name =>
    obtain ⟨dir, hps, hs⟩ := steps_withExtension hpn hp e he.2.1
    cases hqn : q.fileName? with
    | none =>
      rw [withExtension_eq_self hqn] at h
      have := last_step_of_no_name hqn (by rw [← h, hs])
      have := he.1
      simp at *
      omega
    | some name' =>
      obtain ⟨dir', hqs, hs'⟩ := steps_withExtension hqn hq e' he'.2.1
      rw [hs, hs', Prod.mk.injEq] at h
      obtain ⟨hdir, hlast⟩ := append_inj' h.2 rfl
      obtain ⟨rfl, -⟩ := append_dot_inj he.2.2 he'.2.2 (singleton_inj.mp hlast)
      exact hne (by rw [hps, hqs, h.1, hdir])

end ScriptIr.Path

namespace ScriptIr

variable {outDir : Option Path} {inputs : List Path}

/-! ## The check -/

theorem checkOutputsAfter_ok {seen : List Path} (h : checkOutputsAfter outDir seen inputs = .ok ()) :
    (∀ a ∈ seen, ∀ b ∈ inputs, (outputStem a outDir).steps ≠ (outputStem b outDir).steps)
    ∧ inputs.Pairwise fun a b => (outputStem a outDir).steps ≠ (outputStem b outDir).steps := by
  induction inputs generalizing seen with
  | nil => simp
  | cons input inputs ih =>
    simp only [checkOutputsAfter] at h
    split at h
    next => cases h
    next hnone =>
      obtain ⟨hseen, hpairs⟩ := ih h
      have hnew : ∀ a ∈ seen, (outputStem a outDir).steps ≠ (outputStem input outDir).steps := by
        simpa using List.find?_eq_none.mp hnone
      refine ⟨fun a ha b hb => ?_, List.pairwise_cons.mpr ⟨fun b hb => ?_, hpairs⟩⟩
      · rcases List.mem_cons.mp hb with rfl | hb
        · exact hnew a ha
        · exact hseen a (List.mem_append_left _ ha) b hb
      · exact hseen input (by simp) b hb

theorem checkOutputs_pairwise (h : checkOutputs inputs outDir = .ok ()) :
    inputs.Pairwise fun a b => (outputStem a outDir).steps ≠ (outputStem b outDir).steps :=
  (checkOutputsAfter_ok h).2

def resultEndings : List String := ["ir", "tir"]

theorem ending_of_result {e : String} (h : e ∈ resultEndings) : Path.Ending e := by
  unfold resultEndings at h
  rcases List.mem_cons.mp h with rfl | h
  · refine ⟨by decide, by decide, by decide⟩
  · obtain rfl := List.mem_singleton.mp h
    refine ⟨by decide, by decide, by decide⟩

/-- **Results stay apart where stems have no extension of their own.** In an accepted list, two inputs
whose stems have no extension have different places for all their results. -/
theorem plain_outputs_apart (inputs : List Path) (outDir : Option Path)
    (haccepted : checkOutputs inputs outDir = .ok ()) :
    inputs.Pairwise fun a b => (outputStem a outDir).extension? = none →
      (outputStem b outDir).extension? = none → ∀ e ∈ resultEndings, ∀ e' ∈ resultEndings,
        ((outputStem a outDir).withExtension e).steps
          ≠ ((outputStem b outDir).withExtension e').steps := by
  refine (checkOutputs_pairwise haccepted).imp fun hne ha hb e he e' he' => ?_
  exact Path.withExtension_apart ha hb hne (ending_of_result he) (ending_of_result he')

/-- Inputs with and without a second ending, next to one another and in a directory. -/
theorem plain_outputs_apart_mixed :
    checkOutputs [⟨"src/main.js.json"⟩, ⟨"src/.main.json"⟩, ⟨"main.json"⟩] none = .ok ()
    ∧ ∀ e ∈ resultEndings, ∀ e' ∈ resultEndings,
      ((outputStem ⟨"src/main.js.json"⟩ none).withExtension e).steps
        ≠ ((outputStem ⟨"src/.main.json"⟩ none).withExtension e').steps := by
  have hplain : (outputStem ⟨"src/main.js.json"⟩ none).extension? = none
      ∧ (outputStem ⟨"src/.main.json"⟩ none).extension? = none := by decide +kernel
  have haccepted : checkOutputs [⟨"src/main.js.json"⟩, ⟨"src/.main.json"⟩, ⟨"main.json"⟩] none
      = .ok () := rfl
  have h := plain_outputs_apart _ _ haccepted
  exact ⟨haccepted, List.rel_of_pairwise_cons h (by simp) hplain.1 hplain.2⟩

/-- The check accepts two inputs that are both written to `a.ir`. -/
theorem extended_outputs_collide :
    checkOutputs [⟨"a.json"⟩, ⟨"a.b.c.json"⟩] none = .ok ()
    ∧ (outputStem ⟨"a.json"⟩ none).withExtension "ir"
      = (outputStem ⟨"a.b.c.json"⟩ none).withExtension "ir" :=
  ⟨rfl, by decide +kernel⟩

end ScriptIr
