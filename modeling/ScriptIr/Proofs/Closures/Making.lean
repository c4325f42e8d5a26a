import ScriptIr.Proofs.Closures.Numbering

/-!
# Closures that are made

Code that is lowered opens the functions that stand in its source, in the order of the text up to
hoisting, and each function makes one closure of each function that stands directly in it.

* `making`: code makes the closures of the functions that stand in it.
* `makes_program`: the functions of a program, and the closures that they make.
-/
namespace ScriptIr

open Code List Lower

variable {i : Inst}

def Code.Inst.link? : Inst → Option (FunctionKind × FuncId)
  | .func target _ => some (.function, target)
  | .arrow target _ => some (.arrow, target)
  | _ => none

theorem Code.Inst.link?_eq_none (h : i.closure? = none) : i.link? = none := by
  cases i with
  | func target captured | arrow target captured => cases h
  | _ => rfl

def Code.Function.made (F : Code.Function) : List (FunctionKind × FuncId) :=
  F.insts.toList.filterMap Inst.link?

namespace Lower

open ScriptIr.Tree

variable {f : Nat} {v : InstId} {j : Inst} {s t u : State} {x : Emit α} {g : α → Emit β}
  {firstId : FuncId} {name : String}

theorem filterMap_set {l : List α} {f : α → Option β} {v : Nat} {i j : α} (hv : l[v]? = some i)
    (h : f j = f i) : (l.set v j).filterMap f = l.filterMap f := by
  obtain ⟨hlt, rfl⟩ := List.getElem?_eq_some_iff.mp hv
  have hmap : (l.set v j).map f = l.map f := by
    rw [List.map_set, h, ← List.map_set, List.set_getElem_self]
  have hid (l : List α) : l.filterMap f = (l.map f).filterMap id := by rw [List.filterMap_map]; rfl
  rw [hid, hid, hmap]

def State.made (s : State) (g : Nat) : List (FunctionKind × FuncId) :=
  ((s.fn? g).map (·.made)).getD []

namespace State

theorem made_addFunction (s : State) (name : String) (paramCount : UInt32) (g : Nat) :
    (s.addFunction name paramCount).made g = s.made g := by
  unfold made
  rw [fn?_addFunction]
  split
  next h =>
    rw [h, fn?_fnCount]
    rfl
  next => rfl

theorem made_addBlock (s : State) (f g : Nat) : (s.addBlock f).made g = s.made g := by
  unfold made addBlock
  rw [fn?_modifyFn]
  split
  · cases s.fn? g <;> rfl
  · rfl

theorem made_push (hf : f < s.fnCount) (b : BlockId) (i : Inst) (g : Nat) :
    (s.push f b i).made g = s.made g ++ if g = f then i.link?.toList else [] := by
  obtain ⟨F, hF⟩ := fn?_isSome hf
  unfold made push
  rw [fn?_modifyFn]
  split
  next h =>
    subst h
    rw [hF]
    simp only [Option.map_some, Option.getD_some, Code.Function.made, Code.Function.push,
      Array.toList_push, filterMap_append, filterMap_cons, filterMap_nil]
    cases i.link? <;> rfl
  next => rw [append_nil]

theorem made_replace (hv : s.inst? f v = some i) (hi : i.closure? = none) (hj : j.closure? = none)
    (g : Nat) : (s.replace f v j).made g = s.made g := by
  unfold inst? at hv
  obtain ⟨F, hF, hF'⟩ := Option.bind_eq_some_iff.mp hv
  unfold made replace
  rw [fn?_modifyFn]
  split
  next h =>
    subst h
    rw [hF]
    show (F.insts.setIfInBounds v j).toList.filterMap Inst.link? = F.insts.toList.filterMap Inst.link?
    rw [Array.toList_setIfInBounds]
    refine filterMap_set (Array.getElem?_toList ▸ hF') ?_
    rw [Code.Inst.link?_eq_none hi, Code.Inst.link?_eq_none hj]
  next => rfl

def names (s : State) : List String := s.module.functions.toList.map (·.name)

theorem length_names (s : State) : s.names.length = s.fnCount := by simp [names, fnCount]

theorem names_modifyFn (s : State) (f : Nat) {change : Code.Function → Code.Function}
    (h : ∀ F, (change F).name = F.name) : (s.modifyFn f change).names = s.names := by
  refine ext_getElem? fun k => ?_
  have hfn (s : State) : s.names[k]? = (s.fn? k).map (·.name) := by simp [names, fn?]
  rw [hfn, hfn, fn?_modifyFn]
  split
  · cases s.fn? k with
    | none => rfl
    | some F => exact congrArg some (h F)
  · rfl

theorem names_addFunction (s : State) (name : String) (paramCount : UInt32) :
    (s.addFunction name paramCount).names = s.names ++ [name] := by
  simp [names, addFunction, Code.Module.newFunc]

def StaysQuiet (s t : State) : Prop :=
  ∀ g v i, s.inst? g v = some i → i.closure? = none → ∃ j, t.inst? g v = some j ∧ j.closure? = none

theorem StaysQuiet.trans (h : s.StaysQuiet t) (h' : t.StaysQuiet u) : s.StaysQuiet u := by
  intro g v i hi hquiet
  obtain ⟨j, hj, hquiet⟩ := h g v i hi hquiet
  exact h' g v j hj hquiet

theorem staysQuiet_of_inst? (h : ∀ g v i, s.inst? g v = some i → t.inst? g v = some i) :
    s.StaysQuiet t := fun g v i hi hquiet => ⟨i, h g v i hi, hquiet⟩

theorem staysQuiet_push (hf : f < s.fnCount) (b : BlockId) (i : Inst) : s.StaysQuiet (s.push f b i) := by
  refine staysQuiet_of_inst? fun g v j hj => ?_
  rw [inst?_push hf, if_neg, hj]
  rintro ⟨rfl, rfl⟩
  exact absurd (lt_instCount hj) (Nat.lt_irrefl _)

theorem staysQuiet_replace (s : State) (f : Nat) (v : InstId) (h : i.closure? = none) :
    s.StaysQuiet (s.replace f v i) := by
  intro g w j hj hquiet
  rw [inst?_replace]
  split
  next heq =>
    obtain ⟨rfl, rfl⟩ := heq
    rw [hj]
    exact ⟨i, rfl, h⟩
  next => exact ⟨j, hj, hquiet⟩

end State

def linkedTo (firstId : FuncId) (links : List Nest.Link) (g : Nat) : List (FunctionKind × FuncId) :=
  (links.filter (·.host = g)).map fun l => (l.kind, firstId + l.target.toUInt32)

theorem linkedTo_append (firstId : FuncId) (ls ls' : List Nest.Link) (g : Nat) :
    linkedTo firstId (ls ++ ls') g = linkedTo firstId ls g ++ linkedTo firstId ls' g := by
  simp [linkedTo]

/-- Between two states the given nests have been lowered in function `f`: their functions are new, in
their order, and each function has the closures of those that stand directly in it. -/
structure Makes (firstId : FuncId) (f : Nat) (ns : List Nest) (s t : State) : Prop where
  next : t.module.nextId = firstId + t.fnCount.toUInt32
  names : t.names = s.names ++ Nest.namesOf ns
  made : ∀ g, t.made g = s.made g ++ linkedTo firstId (Nest.linksOf f s.fnCount ns) g
  quiet : s.StaysQuiet t

namespace Makes

variable {ms ns : List Nest}

theorem fnCount (h : Makes firstId f ns s t) : t.fnCount = s.fnCount + Nest.sizes ns := by
  rw [← State.length_names, h.names, length_append, State.length_names, Nest.length_namesOf]

theorem trans (h : Makes firstId f ms s t) (h' : Makes firstId f ns t u) :
    Makes firstId f (ms ++ ns) s u where
  next := h'.next
  names := by rw [h'.names, h.names, Nest.namesOf_append, append_assoc]
  made g := by
    rw [h'.made, h.made, h.fnCount, Nest.linksOf_append, linkedTo_append, append_assoc]
  quiet := h.quiet.trans h'.quiet

/-- A step that makes neither functions nor closures. -/
theorem of_eq (hs : s.module.nextId = firstId + s.fnCount.toUInt32)
    (hnext : t.module.nextId = s.module.nextId) (hnames : t.names = s.names)
    (hmade : ∀ g, t.made g = s.made g) (hquiet : s.StaysQuiet t) : Makes firstId f [] s t where
  next := by rw [hnext, hs, ← State.length_names, ← State.length_names, hnames]
  names := by rw [hnames, Nest.namesOf, append_nil]
  made g := by rw [hmade]; simp [Nest.linksOf, linkedTo]
  quiet := hquiet

end Makes

/-- A computation in function `f` that succeeds lowers the given nests. -/
def Adds (firstId : FuncId) (f : Nat) (ns : List Nest) (x : Emit α) : Prop :=
  ∀ s a t, s.module.nextId = firstId + s.fnCount.toUInt32 → f < s.fnCount → x s = .ok a t →
    Makes firstId f ns s t

namespace Adds

variable {ms ns : List Nest}

theorem pure (a : α) : Adds firstId f [] (Pure.pure a) := by
  intro s a t hs _ h
  cases h
  exact .of_eq hs rfl rfl (fun _ => rfl) (State.staysQuiet_of_inst? fun _ _ _ h => h)

theorem throw (e : Error) : Adds firstId f ns (MonadExcept.throw e : Emit α) := by
  intro s a t _ _ h
  cases h

theorem bind (hx : Adds firstId f ms x) (hg : ∀ a, Adds firstId f ns (g a)) :
    Adds firstId f (ms ++ ns) (x >>= g) := by
  intro s b u hs hf h
  obtain ⟨a, t, hxs, hgt⟩ := run_bind h
  have hfirst := hx s a t hs hf hxs
  exact hfirst.trans (hg a t b u hfirst.next (by rw [hfirst.fnCount]; omega) hgt)

theorem naming (x : Scope.Naming α) : Adds firstId f [] (naming x) := by
  intro s a t hs _ h
  unfold Lower.naming at h
  split at h
  · cases h
    exact .of_eq hs rfl rfl (fun _ => rfl) (State.staysQuiet_of_inst? fun _ _ _ h => h)
  · cases h

theorem newScope (parent : Option Scope.ScopeId) (kind : Scope.Kind) :
    Adds firstId f [] (newScope parent kind) :=
  naming fun a => .ok (a.push parent kind).1 (a.push parent kind).2

theorem record (u : Use) : Adds firstId f [] (record u) := by
  intro s a t hs _ h
  cases h
  exact .of_eq hs rfl rfl (fun _ => rfl) (State.staysQuiet_of_inst? fun _ _ _ h => h)

variable (ctx : Ctx)

theorem newBlock : Adds firstId ctx.func [] (newBlock ctx) := by
  intro s a t hs _ h
  rw [newBlock_eq] at h
  cases h
  exact .of_eq hs rfl (State.names_modifyFn _ _ fun _ => rfl) (State.made_addBlock _ _)
    (State.staysQuiet_of_inst? fun _ _ _ h => by rwa [State.inst?_addBlock])

theorem emit (block : BlockId) {inst : Inst} (hinst : inst.closure? = none) :
    Adds firstId ctx.func [] (emit ctx block inst) := by
  intro s a t hs hf h
  rw [emit_eq] at h
  cases h
  refine .of_eq hs rfl (State.names_modifyFn _ _ fun _ => rfl) (fun g => ?_)
    (State.staysQuiet_push hf block inst)
  rw [State.made_push hf, Code.Inst.link?_eq_none hinst]
  simp

theorem makes_replace (hs : s.module.nextId = firstId + s.fnCount.toUInt32) (hv : s.inst? f v = some i)
    (hi : i.closure? = none) (hj : j.closure? = none) : Makes firstId f [] s (s.replace f v j) :=
  .of_eq hs rfl (State.names_modifyFn _ _ fun _ => rfl) (State.made_replace hv hi hj)
    (State.staysQuiet_replace _ _ _ hj)

theorem completeFrame (push : InstId) (size : UInt32) (captured : List InstId)
    {rest : Emit Unit} (hrest : Adds firstId ctx.func [] rest) :
    Adds firstId ctx.func [] (completeFrame ctx push size captured rest) := by
  intro s a u hs hf h
  obtain ⟨inst, s', hinst, h⟩ := run_bind h
  rw [instAt?_eq] at hinst
  cases hinst
  cases hinst : s.inst? ctx.func push with
  | none => rw [hinst] at h; cases h
  | some inst =>
    rw [hinst] at h
    cases inst with
    | pushScope n outer =>
      obtain ⟨_, t, hpatch, h⟩ := run_bind h
      rw [patch_eq] at hpatch
      cases hpatch
      have hfirst : Makes firstId ctx.func [] s (s.replace ctx.func push (.pushScope size captured)) :=
        makes_replace hs hinst rfl rfl
      exact hfirst.trans (hrest _ _ _ hfirst.next (by rw [hfirst.fnCount]; omega) h)
    | _ => cases h

theorem completePhi (block : BlockId) {x : InstId → Emit α}
    (incoming : α → List (BlockId × InstId)) (hx : ∀ id, Adds firstId ctx.func [] (x id)) :
    Adds firstId ctx.func [] (completePhi ctx block x incoming) := by
  intro s a w hs hf h
  obtain ⟨id, t, hemit, h⟩ := run_bind h
  obtain ⟨a', u, hrun, h⟩ := run_bind h
  obtain ⟨_, v, hpatch, h⟩ := run_bind h
  cases h
  have hphi : Makes firstId ctx.func [] s t := emit ctx block rfl s id t hs hf hemit
  have hmid := hx id t a u hphi.next (by rw [hphi.fnCount]; omega) hrun
  rw [emit_eq] at hemit
  cases hemit
  -- the phi is still there, as nothing replaced it by a closure
  have hthere : (s.push ctx.func block (.phi [])).inst? ctx.func (s.instCount ctx.func)
      = some (.phi []) := by
    rw [State.inst?_push hf, if_pos ⟨rfl, rfl⟩]
  obtain ⟨j, hj, hquiet⟩ := hmid.quiet _ _ _ hthere rfl
  rw [patch_eq] at hpatch
  cases hpatch
  exact (hphi.trans hmid).trans (makes_replace hmid.next hj hquiet rfl)

end Adds

def making (firstId : FuncId) : Judgement where
  holds f _ ns x := Adds firstId f ns x
  pure _ _ a := .pure a
  throw _ _ _ e := .throw e
  bind hx hg := hx.bind hg
  naming _ _ x _ := .naming x
  opening hg := (Adds.newScope _ _).bind fun scope => hg 0 scope (Nat.zero_le _)
  record _ _ u := .record u
  newBlock ctx _ := .newBlock ctx
  emit ctx block _ _ h := .emit ctx block h
  completeFrame ctx push size captured _ _ h := .completeFrame ctx push size captured h
  completePhi ctx block _ incoming _ h := .completePhi ctx block incoming h

theorem linkedTo_closure (firstId : FuncId) {n : Nat} (h : f < n) (kind : FunctionKind) (name : String)
    (ns : List Nest) (g : Nat) :
    linkedTo firstId (Nest.linksOf n (n + 1) ns) g
        ++ (if g = f then [(kind, firstId + n.toUInt32)] else [])
      = linkedTo firstId (Nest.linksOf f n [.mk kind name ns]) g := by
  have hlinks : Nest.linksOf f n [.mk kind name ns]
      = [⟨f, kind, n⟩] ++ Nest.linksOf n (n + 1) ns := by simp [Nest.linksOf, Nest.links]
  rw [hlinks, linkedTo_append]
  by_cases hg : g = f
  · subst hg
    -- the functions inside are not `f`, so none of their closures is made there
    have hnone : linkedTo firstId (Nest.linksOf n (n + 1) ns) g = [] := by
      rw [linkedTo, map_eq_nil_iff, filter_eq_nil_iff]
      intro l hl
      rcases Nest.host_of_mem_linksOf n (n + 1) ns l hl with hhost | hhost
      · simp; omega
      · simp; omega
    rw [hnone, if_pos rfl]
    simp [linkedTo]
  · have hother : f ≠ g := fun h => hg h.symm
    simp [linkedTo, hg, hother]

theorem Makes.closure {ns : List Nest} {paramCount : UInt32} {kind : FunctionKind} {inst : Inst}
    (hf : f < s.fnCount) (hinner : Makes firstId s.fnCount ns (s.addFunction name paramCount) t)
    (hfetched : Makes firstId f [] t u) (block : BlockId)
    (hinst : inst.link? = some (kind, firstId + s.fnCount.toUInt32)) :
    Makes firstId f [.mk kind name ns] s (u.push f block inst) := by
  have hf' : f < u.fnCount := by
    rw [hfetched.fnCount, hinner.fnCount, State.fnCount_addFunction]
    omega
  have hopened : s.StaysQuiet (s.addFunction name paramCount) :=
    State.staysQuiet_of_inst? fun g v i hi => by rwa [State.inst?_addFunction]
  refine ⟨?_, ?_, fun g => ?_, ?_⟩
  · rw [State.fnCount_push]
    exact hfetched.next
  · have hnames : (u.push f block inst).names = u.names := State.names_modifyFn _ _ fun _ => rfl
    rw [hnames, hfetched.names, hinner.names, State.names_addFunction]
    simp [Nest.namesOf, Nest.names]
  · have hadded : linkedTo firstId (Nest.linksOf f t.fnCount []) g = [] := rfl
    rw [State.made_push hf', hfetched.made, hinner.made, State.made_addFunction, hadded, hinst,
      State.fnCount_addFunction, ← linkedTo_closure firstId hf]
    simp
  · exact ((hopened.trans hinner.quiet).trans hfetched.quiet).trans (State.staysQuiet_push hf' block inst)

/-- A function and the closure that is made of it. -/
theorem making_closes (firstId : FuncId) : (making firstId).Closes := by
  rintro h body ns hbody ⟨⟨ctx, low⟩, _⟩ block s r w hs (hf : ctx.func < s.fnCount) hrun
  obtain ⟨⟨id, names⟩, t, hfunction, hrun⟩ := run_bind hrun
  obtain ⟨captured, u, hcaptured, hrun⟩ := run_bind hrun
  obtain ⟨value, w', hemit, hpure⟩ := run_bind hrun
  cases hpure
  cases hparams : parameterNames h.params with
  | error e =>
    rw [functionCode_of_error hparams] at hfunction
    obtain ⟨_, _, _, hthrow⟩ := run_bind hfunction
    cases hthrow
  | ok params =>
    rw [functionCode_of_ok hparams] at hfunction
    obtain ⟨_, s1, hheader, hfunction⟩ := run_bind hfunction
    obtain ⟨_, _, hget, hfunction⟩ := run_bind hfunction
    cases hget
    obtain ⟨func, s2, hnew, hfunction⟩ := run_bind hfunction
    obtain ⟨_, s3, hopened, hpure⟩ := run_bind hfunction
    cases hpure
    rw [newFunction_eq] at hnew
    cases hnew
    have hcheck : (making firstId).holds ctx.func low [] (checkHeader h) := Judgement.checkHeader h
    have hchecked : Makes firstId ctx.func [] s s1 :=
      hcheck s _ s1 hs hf hheader
    have hf1 : ctx.func < s1.fnCount := by rw [hchecked.fnCount]; omega
    refine hchecked.trans ?_
    have hnext := State.next_addFunction hchecked.next h.name params.1.length.toUInt32
    have hopen : (making firstId).holds s1.fnCount low ns
        (openedCode h params.1 params.2 body ctx.scope s1.fnCount) :=
      Judgement.openedCode h params.1 params.2 (hbody params hparams) ctx.scope s1.fnCount
    have hinner : Makes firstId s1.fnCount ns (s1.addFunction h.name params.1.length.toUInt32) t :=
      hopen _ _ t hnext (by rw [State.fnCount_addFunction]; omega) hopened
    have hf2 : ctx.func < t.fnCount := by
      rw [hinner.fnCount, State.fnCount_addFunction]; omega
    have hfetch : (making firstId).holds ctx.func low [] (capturedAddresses ctx block names) :=
      Judgement.capturedAddresses block names
    have hfetched : Makes firstId ctx.func [] t u := hfetch t captured u hinner.next hf2 hcaptured
    rw [emit_eq] at hemit
    cases hemit
    refine .closure hf1 hinner hfetched block ?_
    rw [← hchecked.next]
    cases h.kind <;> rfl

theorem makes_program {p : Tree.Program} (h : program p { module := .empty name firstId } = .ok () s) :
    s.names = mainName :: Nest.namesOf p.nests ∧ ∀ g, s.made g = linkedTo firstId p.links g := by
  obtain ⟨func, s1, hnew, h⟩ := run_bind h
  rw [newFunction_eq] at hnew
  cases hnew
  have hstart : (State.addFunction { module := .empty name firstId } mainName 0).module.nextId
      = firstId + (1 : Nat).toUInt32 := rfl
  have hbody := (Adds.newScope none .function).bind fun scope => Adds.bind (.newBlock ⟨0, scope⟩) fun entry =>
    Judgement.program_body (J := ⟨_, making_closes firstId⟩) p ⟨0, scope⟩ entry
  have hmakes : Makes firstId 0 p.nests (State.addFunction { module := .empty name firstId } mainName 0) s :=
    hbody _ _ _ hstart Nat.zero_lt_one h
  refine ⟨hmakes.names, fun g => ?_⟩
  have hnone : (State.addFunction { module := .empty name firstId } mainName 0).made g = [] := by
    rw [State.made_addFunction]
    rfl
  rw [hmakes.made, hnone]
  rfl

end Lower

end ScriptIr
