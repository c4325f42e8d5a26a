import ScriptIr.Proofs.Compile.Resolved

/-!
# Frames have room for their slots and no more

The size of a frame is read off the names of its scope once its contents have been lowered. The slots are
made by the code that lets the names in, which all stands in the block that opens the frame.
-/
namespace ScriptIr

open Code List

namespace Code.Function

/-- An instruction that makes a slot while the frame that `push` opens is the innermost open one. -/
def MakesSlot (f : Function) (frames : BlockId → List InstId) (push v : InstId) : Prop :=
  f.insts[v]? = some .alloca ∧ ∃ outer, f.StandsIn frames v (push :: outer)

/-- The size of a frame is the number of its slots. They stand behind the instruction that opens the frame
in its block, which runs from there to its end: each of them is made once whenever the frame is opened. -/
def Fits (f : Function) (frames : BlockId → List InstId) (push : InstId) (size : UInt32) : Prop :=
  ∃ (b : BlockId) (ids : Block) (before after slots : List InstId), f.blocks[b]? = some ids ∧
    ids.toList = before ++ push :: after ∧ after.Nodup ∧ slots ⊆ after ∧ slots.Nodup ∧
    size = slots.length.toUInt32 ∧ ∀ v, v ∈ slots ↔ f.MakesSlot frames push v

end Code.Function

namespace Lower

open Scope

variable {strict : Prop} {c : Config strict} {f : Nat} {F : Function} {k l : ScopeId}
  {push v : InstId} {vs : List InstId} {size : UInt32} {captured : List InstId} {name : String}

/-- A frame is opened for a block scope of its function. -/
theorem Layout.Path.opens {p : Layout} (h : p.Path f k vs l) (hv : v ∈ vs)
    (hi : p.inst? f v = some (.pushScope size captured)) :
    ∃ inner, p.kind inner = .block ∧ p.home inner = f ∧ p.frame inner = some v := by
  induction h with
  | nil => cases hv
  | cons hmove _ ih =>
    rcases mem_cons.mp hv with rfl | hv
    · cases hmove with
      | stay hi' _ hstay =>
        cases hi.symm.trans hi'
        cases hstay
      | push _ hkind _ hhome hframe => exact ⟨_, hkind, hhome, hframe⟩
      | pop hi' => cases hi.symm.trans hi'
    · exact ih hv

/-- Control gets into a scope only by opening its frame. -/
theorem Config.mem_of_enters (h : c.Path f l vs k) (hpush : c.frame k = some push)
    (hout : k ∉ c.scopes.chain l) : push ∈ vs := by
  induction h with
  | nil k => exact absurd (Scope.Arena.mem_chain_self _ k) hout
  | @cons _ inner k _ _ hmove _ ih =>
    cases hmove with
    | stay => exact mem_cons_of_mem _ (ih hpush hout)
    | push _ _ hparent _ hframe =>
      by_cases hk : inner = k
      · subst hk
        cases hpush.symm.trans hframe
        exact mem_cons_self
      · refine mem_cons_of_mem _ (ih hpush fun hin => ?_)
        rw [Scope.Arena.chain_inner hparent (c.arenaOk.sound.parent_lt _ _ hparent), mem_cons] at hin
        exact hin.elim (fun heq => hk heq.symm) hout
    | pop _ _ habove =>
      refine mem_cons_of_mem _ (ih hpush ?_)
      refine habove.induct (P := (k ∉ c.scopes.chain ·)) hout fun x p _ hp hx hin => hx ?_
      rw [Scope.Arena.chain_inner hp (c.arenaOk.sound.parent_lt _ _ hp)]
      exact mem_cons_of_mem _ hin

namespace Config.Final

variable (hc : c.Final)
include hc

theorem allots (h : c.own? k name = some (.cell v)) : c.Allots (c.home k) v k := by
  obtain ⟨l, hl, ht | ⟨other, ho⟩⟩ :=
    (c.lexicalOk hc.strict).slots _ v (c.arenaOk.cell k name v h)
  · rw [hc.tokens, Multiset.mem_singleton] at ht
    cases ht
  · rw [(c.arenaOk.slots k l name other _ h ho hl.home.symm).1]
    rw [hl.home]
    exact hl

theorem eq_of_frames (hk : c.frame k = some push) (hhome : c.home l = c.home k) {outer : List InstId}
    (hl : c.frames l = push :: outer) : l = k := by
  cases hkind : c.kind l with
  | function =>
    rw [c.frames_function hkind] at hl
    cases hl
  | block =>
    obtain ⟨w, hw⟩ := Option.ne_none_iff_exists'.mp (hc.allFramed l hkind)
    obtain ⟨p, hp, _⟩ := c.arenaOk.inner l hkind
    rw [c.frames_block hkind hp hw] at hl
    cases hl
    exact c.arenaOk.frames l k push hw hk hhome

/-- The slots of a scope follow the instruction that opens its frame. -/
theorem mem_after (hF : c.fn? (c.home k) = some F) (hkind : c.kind k = .block)
    (hframe : c.frame k = some push) (h : c.own? k name = some (.cell v)) {b : BlockId} {ids : Block}
    {before after : List InstId} (hb : F.blocks[b]? = some ids)
    (hids : ids.toList = before ++ push :: after) : v ∈ after := by
  obtain ⟨b', ⟨before', after', hb', hpath⟩, hparent⟩ := (hc.allots h).site
  have hp := hparent hkind
  obtain ⟨x, y, rfl⟩ := append_of_mem (c.mem_of_enters hpath hframe fun hin =>
    Nat.lt_irrefl _ (Nat.lt_of_le_of_lt (Scope.Arena.le_of_mem_chain hin)
      (c.arenaOk.sound.parent_lt _ _ hp)))
  unfold State.block? at hb'
  rw [hF, Option.bind_some] at hb'
  obtain ⟨ids', hids', hlist⟩ := Option.map_eq_some_iff.mp hb'
  rw [append_assoc, cons_append] at hlist
  obtain ⟨rfl, rfl⟩ := (c.codeOk.placed _ F hF).place_unique hb hids hids' hlist
  cases hb.symm.trans hids'
  rw [hids] at hlist
  cases append_cancel_left hlist
  exact mem_append_right _ mem_cons_self

theorem fits (hF : c.fn? f = some F) (hpush : F.insts[push]? = some (.pushScope size captured)) :
    F.Fits (c.entryFrames f) push size := by
  have hplaced := c.codeOk.placed f F hF
  have hi := (Layout.inst?_eq hF push).trans hpush
  obtain ⟨ids, hmem, hin⟩ := mem_flatMap.mp
    (hplaced.mem_iff.mpr (mem_range.mpr (Array.getElem?_eq_some_iff.mp hpush).1))
  obtain ⟨b, hb⟩ := Array.mem_iff_getElem?.mp (Array.mem_toList_iff.mp hmem)
  obtain ⟨before, after, hids⟩ := append_of_mem hin
  obtain ⟨_, body, last, _, hbody, hpath, j, hj, hterm, _⟩ := Config.exists_sealed hc.not_open hF hb
  have hopens : push ∈ body := (mem_body_or_last (hbody.symm.trans hids)).resolve_right fun hlast => by
    rw [← hlast.1, hi] at hj
    cases hj
    cases hterm
  obtain ⟨k, hkind, rfl, hframe⟩ := hpath.opens hopens hi
  obtain ⟨outer, hp, _⟩ := c.arenaOk.inner k hkind
  obtain ⟨_, u, _, hopener, _, _⟩ := hc.closed (Layout.lt_scopeCount hkind) hp
  cases hopener with
  | closure hfunction => cases hkind.symm.trans hfunction
  | frame _ hframe' hi' hcount =>
    cases hframe.symm.trans hframe'
    cases hi.symm.trans hi'
    obtain ⟨names, hnodup, rfl, hnames⟩ := hcount
    have hcell : ∀ name ∈ names, ∃ v, c.own? k name = some (.cell v) := by
      intro name hname
      obtain ⟨slot, hslot⟩ := Option.isSome_iff_exists.mp ((hnames name).mpr hname)
      cases slot with
      | cell v => exact ⟨v, hslot⟩
      | parameter i => cases hkind.symm.trans (c.arenaOk.params k name i hslot).1
    choose! slot hslot using hcell
    refine ⟨b, ids, before, after, names.map slot, hb, hids, ?_, ?_, ?_, by rw [length_map], ?_⟩
    · have hall := hplaced.nodup_block hb
      rw [hids] at hall
      exact hall.of_append_right.of_cons
    · intro v hv
      obtain ⟨name, hname, rfl⟩ := mem_map.mp hv
      exact hc.mem_after hF hkind hframe (hslot name hname) hb hids
    · refine hnodup.map_on fun x hx y hy hxy => ?_
      exact (c.arenaOk.slots k k x y _ (hslot x hx) (hxy ▸ hslot y hy) rfl).2
    · intro v
      constructor
      · intro hv
        obtain ⟨name, hname, rfl⟩ := mem_map.mp hv
        obtain ⟨b', hsite, _⟩ := (hc.allots (hslot name hname)).site
        have hstands := hc.standsIn hF ⟨b', hsite⟩
        rw [c.frames_block hkind hp hframe] at hstands
        exact ⟨(Layout.inst?_eq hF _).symm.trans (c.arenaOk.cell k name _ (hslot name hname)), _, hstands⟩
      · rintro ⟨hv, rest, hstands⟩
        obtain ⟨l, hl, ht | ⟨name, ho⟩⟩ :=
          (c.lexicalOk hc.strict).slots _ v ((Layout.inst?_eq hF v).trans hv)
        · rw [hc.tokens, Multiset.mem_singleton] at ht
          cases ht
        obtain ⟨b', hsite, _⟩ := hl.site
        have hframes := (hc.standsIn hF ⟨b', hsite⟩).unique hplaced hstands
        cases hc.eq_of_frames hframe hl.home hframes
        have hname := (hnames name).mp (Option.isSome_of_mem ho)
        cases (hslot name hname).symm.trans ho
        exact mem_map.mpr ⟨name, hname, rfl⟩

end Config.Final

end Lower

/-- **Frames fit.** In every function of a compiled program whose block-wide declarations stand where a
parser puts them, the size of each frame is the number of slots that are made while the frame is the
innermost open one, and all of them are made in the block that opens the frame, behind its opening. -/
theorem compiled_frames_fit (p : Tree.Program) (name : String) (firstId : FuncId) (m : Code.Module)
    (hshape : p.parserShaped = true) (h : (compile p name firstId).result = .ok m)
    (hfits : m.fits = true) (f : Function) (hf : f ∈ m.functions) :
    ∃ frames, f.Framed frames ∧ ∀ push size captured,
      f.insts[push]? = some (.pushScope size captured) → f.Fits frames push size := by
  obtain ⟨s, hs, rfl⟩ := exists_of_compile h
  obtain ⟨d, rfl, _, htokens⟩ :=
    (Lower.program_sat (Lower.lexicalMode_accepts hshape) name firstId).of_ok hs
  simp only [Code.Module.fits, Bool.and_eq_true, decide_eq_true_eq, Array.all_eq_true_iff_forall_mem]
    at hfits
  have hfinal : d.Final :=
    ⟨trivial, htokens, hfits.1, fun F hF => (hfits.2 F hF).1, fun F hF => (hfits.2 F hF).2⟩
  obtain ⟨g, hg⟩ := Array.mem_iff_getElem?.mp hf
  refine ⟨d.entryFrames g, ?_, fun push size captured hpush => hfinal.fits hg hpush⟩
  exact Lower.Config.framed hfinal.allFramed hfinal.not_open hg (hfinal.size hg)

theorem nestedCaptures_fit :
    ∃ m f, (compile nestedCaptures "m" 0).result = .ok m ∧ m.fits = true ∧ f ∈ m.functions ∧
      (f.insts.filterMap fun | .pushScope size _ => some size | _ => none) = #[1, 1, 1] ∧
      ∃ frames, f.Framed frames ∧ ∀ push size captured,
        f.insts[push]? = some (.pushScope size captured) → f.Fits frames push size := by
  have hrun : ∃ m ∈ (compile nestedCaptures "m" 0).result.toOption, ∃ f ∈ m.functions[1]?, m.fits = true ∧
      (f.insts.filterMap fun | .pushScope size _ => some size | _ => none) = #[1, 1, 1] := by
    decide +kernel
  obtain ⟨m, hm, f, hf, hfits, hsizes⟩ := hrun
  have hm' := eq_ok_of_mem_toOption hm
  have hf' : f ∈ m.functions := Array.mem_of_getElem? hf
  exact ⟨m, f, hm', hfits, hf', hsizes,
    compiled_frames_fit nestedCaptures "m" 0 m (by decide +kernel) hm' hfits f hf'⟩

end ScriptIr
