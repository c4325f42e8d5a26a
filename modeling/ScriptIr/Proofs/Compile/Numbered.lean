import ScriptIr.Proofs.Closures.Making
import ScriptIr.Proofs.Compile.Shifted

/-!
# Functions of a compiled module

A module has one function for each function of its program, numbered from the outside to the inside;
the position of a function gives its id and its section in the file. Each function except the first is
made a closure of in exactly one place, in the function in which it stands. So a loader finds the code
of a closure by its id alone.
-/
namespace ScriptIr

open Code List Module Lower
open ScriptIr.Tree (Nest)

namespace Code

/-- The closures that the instructions of a function make, in block order. -/
def Function.links (F : Function) : List (FunctionKind × FuncId) :=
  F.order.filterMap fun v => F.insts[v]?.bind Inst.link?

theorem Function.links_perm_made {F : Function} (h : F.Placed) : F.links.Perm F.made := by
  have hmade : (range F.insts.size).filterMap (fun v => F.insts[v]?.bind Inst.link?) = F.made := by
    have hget : (range F.insts.size).map (F.insts[·]?) = F.insts.toList.map some := by
      refine ext_getElem (by simp) fun v h _ => ?_
      rw [length_map, length_range] at h
      simp [h]
    have hbind : (fun v => F.insts[v]?.bind Inst.link?)
        = (Option.bind · Inst.link?) ∘ fun v : Code.InstId => F.insts[v]? := rfl
    rw [hbind, ← filterMap_map, hget, filterMap_map]
    rfl
  exact hmade ▸ h.filterMap _

/-- The closures that a module makes, each with the position of the function that makes it. -/
def Module.links (m : Module) : List (Nat × FunctionKind × FuncId) :=
  m.functions.toList.zipIdx.flatMap fun (F, f) => F.links.map (f, ·)

theorem Module.addSections_encodes {fs : List Function} {c c' : Wire.Container}
    {pool pool' : Wire.StringPool} (h : addSections c pool fs = .ok (c', pool')) :
    ∃ payloads, c'.sections.toList = c.sections.toList ++ payloads.map (Wire.SectionKind.function, ·) ∧
      Forall₂ (fun F payload => ∃ q q', Function.encode F q = .ok (payload, q')) fs payloads := by
  induction fs generalizing c pool with
  | nil =>
    cases h
    exact ⟨[], by simp, .nil⟩
  | cons F fs ih =>
    rw [addSections] at h
    cases henc : F.encode pool with
    | error e => rw [henc] at h; cases h
    | ok r =>
      rw [henc] at h
      obtain ⟨payloads, hsections, hencodes⟩ := ih h
      refine ⟨r.1 :: payloads, ?_, .cons ⟨pool, r.2, henc⟩ hencodes⟩
      rw [hsections]
      simp [Wire.Container.add]

end Code

/-! ## Links of a program -/

theorem Tree.Program.sole_link (p : Tree.Program) {k : Nat} (hk : 0 < k) (hlt : k < 1 + Nest.sizes p.nests) :
    ∃ l, p.links.filter (·.target = k) = [l] ∧ l ∈ p.links ∧ l.target = k ∧ l.host < k := by
  have htargets : p.links.map (·.target) = range' 1 (Nest.sizes p.nests) :=
    Nest.targets_linksOf 0 1 p.nests
  have hsole : (p.links.filter (·.target = k)).map (·.target) = [k] := by
    have hmem : k ∈ p.links.map (·.target) := by
      rw [htargets, mem_range'_1]
      omega
    have hnodup : (p.links.map (·.target)).Nodup := htargets ▸ nodup_range'
    have hfilter : (p.links.filter (·.target = k)).map (·.target)
        = (p.links.map (·.target)).filter (· == k) := by
      rw [filter_map]
      rfl
    rw [hfilter, filter_beq, hnodup.count, if_pos hmem]
    rfl
  have hone : (p.links.filter (·.target = k)).length = 1 := by
    simpa using congrArg length hsole
  obtain ⟨l, hl⟩ := length_eq_one_iff.mp hone
  have hmem : l ∈ p.links.filter (·.target = k) := hl ▸ mem_cons_self
  obtain ⟨hmem, htarget⟩ := mem_filter.mp hmem
  have htarget : l.target = k := of_decide_eq_true htarget
  exact ⟨l, hl, hmem, htarget, htarget ▸ Nest.host_lt_target_of 0 1 p.nests Nat.zero_lt_one l hmem⟩

/-! ## Functions of a module -/

section Compiled

variable {p : Tree.Program} {name : String} {b : FuncId} {m : Module}

theorem linkedTo_filter {links : List Nest.Link} {k : Nat} {l : Nest.Link}
    (hsole : links.filter (·.target = k) = [l]) (hk : k < 2 ^ 32)
    (hlinks : ∀ l ∈ links, l.target < 2 ^ 32) (g : Nat) :
    (linkedTo b links g).filter (·.2 = b + k.toUInt32)
      = if g = l.host then [(l.kind, b + k.toUInt32)] else [] := by
  have hl : l.target = k := by
    have hmem : l ∈ links.filter (·.target = k) := hsole ▸ mem_cons_self
    exact of_decide_eq_true (mem_filter.mp hmem).2
  have hcomm : (links.filter (·.host = g)).filter (fun l => b + l.target.toUInt32 = b + k.toUInt32)
      = (links.filter (·.target = k)).filter (·.host = g) := by
    rw [filter_filter, filter_filter]
    refine filter_congr fun l hl => ?_
    simp only [add_toUInt32_inj b (hlinks l hl) hk, Bool.and_comm]
  have hmap : (linkedTo b links g).filter (·.2 = b + k.toUInt32)
      = ((links.filter (·.host = g)).filter (fun l => b + l.target.toUInt32 = b + k.toUInt32)).map
          fun l => (l.kind, b + l.target.toUInt32) := filter_map
  rw [hmap, hcomm, hsole]
  by_cases hg : g = l.host
  · subst hg
    simp [hl]
  · have hother : l.host ≠ g := fun h => hg h.symm
    simp [hg, hother]

section

variable (h : (compile p name b).result = .ok m)
include h

theorem functions_of_compile : m.functions.toList.map (·.name) = mainName :: Nest.namesOf p.nests ∧
      ∀ (f : Nat) (F : Function), m.functions[f]? = some F → F.links.Perm (linkedTo b p.links f) := by
  obtain ⟨s, hs, rfl⟩ := exists_of_compile h
  obtain ⟨hnames, hmade⟩ := Lower.makes_program hs
  refine ⟨hnames, fun f F hF => ?_⟩
  obtain ⟨d, rfl, _⟩ := Lower.exists_finished hs
  have hF : d.toState.fn? f = some F := hF
  have hmade : F.made = linkedTo b p.links f := by
    rw [← hmade f, Lower.State.made, hF]
    rfl
  exact hmade ▸ Function.links_perm_made (d.codeOk.placed f F hF)

theorem size_of_compile : m.functions.size = 1 + Nest.sizes p.nests := by
  have hlength := congrArg length (functions_of_compile h).1
  rw [length_map, length_cons, Nest.length_namesOf, Array.length_toList] at hlength
  omega

theorem target_lt {l : Nest.Link} (hl : l ∈ p.links) : 0 < l.target ∧ l.target < m.functions.size := by
  have hmem : l.target ∈ p.links.map (·.target) := mem_map_of_mem hl
  have htargets : p.links.map (·.target) = range' 1 (Nest.sizes p.nests) :=
    Nest.targets_linksOf 0 1 p.nests
  rw [htargets, mem_range'_1] at hmem
  rw [size_of_compile h]
  omega

end

theorem flatMap_at {ι α : Type} [DecidableEq ι] {l : List ι} {i : ι} (hmem : i ∈ l) (hnodup : l.Nodup)
    (a : α) : (l.flatMap fun j => if j = i then [a] else []) = [a] := by
  have hfilter (l : List ι) :
      (l.flatMap fun j => if j = i then [a] else []) = (l.filter (· == i)).map fun _ => a := by
    induction l with
    | nil => rfl
    | cons j l ih => by_cases h : j = i <;> simp [h, ih]
  rw [hfilter, filter_beq, hnodup.count, if_pos hmem]
  rfl

section

variable (h : (compile p name b).result = .ok m)
include h

/-- The place in which the closure of one target is made. -/
theorem links_of_compile (hfew : m.functions.size < 2 ^ 32)
    {k : Nat} (hk : k < 2 ^ 32) {l : Nest.Link} (hsole : p.links.filter (·.target = k) = [l])
    (hhost : l.host < m.functions.size) :
    m.links.filter (·.2.2 = b + k.toUInt32) = [(l.host, l.kind, b + k.toUInt32)] := by
  have htargets : ∀ l ∈ p.links, l.target < 2 ^ 32 := fun l hl =>
    Nat.lt_trans (target_lt h hl).2 hfew
  have hone : ∀ x ∈ m.functions.toList.zipIdx, (x.1.links.map (x.2, ·)).filter (·.2.2 = b + k.toUInt32)
        = if x.2 = l.host then [(l.host, l.kind, b + k.toUInt32)] else [] := by
    rintro ⟨F, f⟩ hF
    rw [mk_mem_zipIdx_iff_getElem?, Array.getElem?_toList] at hF
    have hperm := ((functions_of_compile h).2 f F hF).filter (·.2 = b + k.toUInt32)
    rw [linkedTo_filter hsole hk htargets] at hperm
    have hmap : (F.links.map (f, ·)).filter (·.2.2 = b + k.toUInt32)
        = (F.links.filter (·.2 = b + k.toUInt32)).map (f, ·) := filter_map
    show (F.links.map (f, ·)).filter (·.2.2 = b + k.toUInt32) = if f = l.host then _ else _
    rw [hmap]
    by_cases hf : f = l.host
    · rw [if_pos hf, perm_singleton] at hperm
      rw [hperm, if_pos hf, ← hf]
      rfl
    · rw [if_neg hf, perm_nil] at hperm
      rw [hperm, if_neg hf]
      rfl
  have hpositions : m.functions.toList.zipIdx.map (·.2) = range' 0 m.functions.size := by
    rw [zipIdx_map_snd, Array.length_toList]
  calc m.links.filter (·.2.2 = b + k.toUInt32) = m.functions.toList.zipIdx.flatMap fun x =>
          (x.1.links.map (x.2, ·)).filter (·.2.2 = b + k.toUInt32) := filter_flatMap ..
    _ = m.functions.toList.zipIdx.flatMap fun x =>
          if x.2 = l.host then [(l.host, l.kind, b + k.toUInt32)] else [] := flatMap_congr hone
    _ = (range' 0 m.functions.size).flatMap fun f =>
          if f = l.host then [(l.host, l.kind, b + k.toUInt32)] else [] := by
        rw [← hpositions, flatMap_map]
    _ = [(l.host, l.kind, b + k.toUInt32)] :=
        flatMap_at (by rw [mem_range'_1]; omega) nodup_range' _

theorem ids_eq_idsFrom : m.ids = idsFrom b m.functions.size := by
  have hids := ids_of_compile h
  have hlength := congrArg length hids
  rw [length_idsFrom, ids, length_map, Array.length_toList] at hlength
  rw [hids, hlength]

theorem closure_resolves (hfew : m.functions.size < 2 ^ 32)
    {site : Nat × FunctionKind × FuncId} (hsite : site ∈ m.links) :
    ∃ F : Function, m.functions[(site.2.2 - b).toNat]? = some F ∧ F.id = site.2.2 := by
  obtain ⟨⟨F, f⟩, hF, hsite⟩ := mem_flatMap.mp hsite
  obtain ⟨y, hy, rfl⟩ := mem_map.mp hsite
  rw [mk_mem_zipIdx_iff_getElem?, Array.getElem?_toList] at hF
  have hy := ((functions_of_compile h).2 f F hF).mem_iff.mp hy
  obtain ⟨l, hl, rfl⟩ := mem_map.mp hy
  obtain ⟨_, hlt⟩ := target_lt h (mem_filter.mp hl).1
  have hposition : (b + l.target.toUInt32 - b).toNat = l.target := by
    rw [UInt32.add_comm, UInt32.add_sub_cancel, Wire.toNat_toUInt32 (hlt.trans hfew)]
  have hG : m.functions[l.target]? = some m.functions[l.target] := Array.getElem?_eq_getElem hlt
  have hid : m.ids[l.target]? = some (m.functions[l.target]).id := by simp [ids, hlt]
  rw [ids_eq_idsFrom h, getElem?_idsFrom b hlt] at hid
  exact ⟨_, hposition.symm ▸ hG, (Option.some.inj hid).symm⟩

theorem sections_of_compile : ∃ c payloads pool, m.container = .ok c ∧
      c.sections.toList = payloads.map (Wire.SectionKind.function, ·) ++ [(.stringPool, pool)] ∧
      Forall₂ (fun F payload => ∃ q q', Function.encode F q = .ok (payload, q'))
        m.functions.toList payloads := by
  obtain ⟨s, hs, rfl⟩ := exists_of_compile h
  obtain ⟨_, bytes, hbytes⟩ := Lower.program_verifies hs
  unfold toBytes container at hbytes
  unfold container
  cases hadd : addSections .empty .empty s.module.functions.toList with
  | error e => rw [hadd] at hbytes; cases hbytes
  | ok r =>
    obtain ⟨payloads, hsections, hencodes⟩ := addSections_encodes hadd
    refine ⟨_, payloads, r.2.bytes, rfl, ?_, hencodes⟩
    simp [Wire.Container.add, hsections, Wire.Container.empty]

end

end Compiled

/-- **Functions are located by their ids.** A compiled module has one function for each function of the
program, behind the one that holds the program's own statements, with ids that follow the positions
around 2^32 and sections at these positions. Each function except the first is made a closure of in
one place of the module, in the function that it stands in, by the instruction for its kind. So the id
in a closure gives the position of its function. -/
theorem functions_located_by_id (p : Tree.Program) (name : String) (b : FuncId) (m : Module)
    (h : (compile p name b).result = .ok m) (hfew : m.functions.size < 2 ^ 32) :
    m.functions.toList.map (·.name) = mainName :: Nest.namesOf p.nests ∧
    m.functions.size = 1 + Nest.sizes p.nests ∧
    m.ids = idsFrom b m.functions.size ∧
    (∃ c payloads pool, m.container = .ok c ∧
      c.sections.toList = payloads.map (Wire.SectionKind.function, ·) ++ [(.stringPool, pool)] ∧
      List.Forall₂ (fun F payload => ∃ q q', Code.Function.encode F q = .ok (payload, q'))
        m.functions.toList payloads) ∧
    (∀ k, 0 < k → k < m.functions.size → ∃ l, p.links.filter (·.target = k) = [l] ∧ l.host < k ∧
      m.links.filter (·.2.2 = b + k.toUInt32) = [(l.host, l.kind, b + k.toUInt32)]) ∧
    ∀ site ∈ m.links, ∃ F : Code.Function,
      m.functions[(site.2.2 - b).toNat]? = some F ∧ F.id = site.2.2 := by
  refine ⟨(functions_of_compile h).1, size_of_compile h, ids_eq_idsFrom h, sections_of_compile h,
    fun k hk hlt => ?_, fun site hsite => closure_resolves h hfew hsite⟩
  obtain ⟨l, hsole, _, _, hhost⟩ := p.sole_link hk (size_of_compile h ▸ hlt)
  exact ⟨l, hsole, hhost,
    links_of_compile h hfew (hlt.trans hfew) hsole (hhost.trans hlt)⟩

/-- An arrow function in a function that is declared behind it, and the closure of another arrow
function: `let a = () => this; function f() { return () => this; }`. -/
def hoistedBehindArrow : Tree.Program :=
  ⟨[.declaration (.mk .blockWide [.mk (.identifier { name := "a" })
      (some (.arrow [] (.expression (.this none)) false none))] none),
    .function (.mk (some { name := "f" }) []
      [.returns (some (.arrow [] (.expression (.this none)) false none))] false false none)]⟩

theorem hoistedBehindArrow_located :
    ∃ m, (compile hoistedBehindArrow "m" 4294967294).result = .ok m ∧
      m.functions.toList.map (·.name) = ["#main", "f", "<arrow>", "<arrow>"] ∧
      m.ids = [4294967294, 4294967295, 0, 1] ∧
      hoistedBehindArrow.links = [⟨0, .function, 1⟩, ⟨1, .arrow, 2⟩, ⟨0, .arrow, 3⟩] ∧
      m.links.filter (·.2.2 = 0) = [(1, .arrow, 0)] := by
  have hrun : ∃ m ∈ (compile hoistedBehindArrow "m" 4294967294).result.toOption, m.functions.size = 4 := by
    decide +kernel
  obtain ⟨m, hm, hsize⟩ := hrun
  have hm' := eq_ok_of_mem_toOption hm
  have hlinks : hoistedBehindArrow.links = [⟨0, .function, 1⟩, ⟨1, .arrow, 2⟩, ⟨0, .arrow, 3⟩] := by
    decide +kernel
  obtain ⟨hnames, _, hids, _, hsites, _⟩ :=
    functions_located_by_id hoistedBehindArrow "m" 4294967294 m hm' (by omega)
  obtain ⟨l, hsole, _, hsite⟩ := hsites 2 (by omega) (by omega)
  have hl : l = ⟨1, .arrow, 2⟩ := by
    rw [hlinks] at hsole
    exact (List.cons.inj hsole).1.symm
  rw [hl] at hsite
  refine ⟨m, hm', hnames, ?_, hlinks, hsite⟩
  rw [hids, hsize]
  rfl

end ScriptIr
