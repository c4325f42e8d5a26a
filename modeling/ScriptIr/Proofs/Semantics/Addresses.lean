import ScriptIr.Proofs.Semantics.Emission

/-!
# What addresses come to

The code that fetches the address of a name comes to the address of the name in the scene, wherever
the name is declared.

* `identifierAddress_does`, `capturedAddresses_does`: addresses of names that are used and captured.
-/
namespace ScriptIr

open Code Scope ScriptIr.Tree

variable {tolerant upper : Bool}

theorem Scope.Arena.Captured.bodies {a b : Scope.Arena} {along : List ScopeId}
    (h : a.Captured along b) : b.bodies = a.bodies := by
  unfold Arena.bodies
  rw [h.size]
  refine List.filter_congr fun k _ => ?_
  obtain ⟨more, index, hk, _⟩ := h.get k
  rw [hk]

namespace Lower

/-- A lookup that succeeds captures names along the chain of the scope. If it finds nothing, no scope
around declares the name; otherwise the scope knows the name afterwards. -/
theorem lookup_ok {s t : State} {k : ScopeId} {name : String} {r : Option Resolved}
    (hs : s.scopes.Sound) (h : naming (Naming.lookup k name tolerant upper) s = .ok r t) :
    t.module = s.module ∧ s.scopes.Captured (s.scopes.chain k) t.scopes ∧ t.scopes.Sound ∧
      (r = none → ∀ l ∈ s.scopes.chain k, (s.scopes.get l).own? name = none) ∧
      ∀ found, r = some found → (t.scopes.get k).binding? name = some found := by
  have hsound := Naming.lookupAlong_sound hs name k tolerant upper
  unfold naming at h
  rw [Naming.lookup_eq] at h
  split at h
  · next a arena hrun =>
    rw [hrun] at hsound
    cases h
    cases r with
    | none =>
      obtain ⟨rfl, hnone⟩ := hsound
      exact ⟨rfl, .refl _ _, hs, fun _ l hl => Scope.own?_eq_none_of_binding? (hnone l hl), nofun⟩
    | some found =>
      obtain ⟨hs', hcap, hbind⟩ := hsound
      exact ⟨rfl, hcap, hs', fun h => (by cases h), fun _ h => by cases h; exact hbind⟩
  · cases h

end Lower

namespace Run

open Lower

variable {V σ : Type} {S : Setting V σ} {B : FunctionSpec} {ι : Type}
  {ctx : Ctx} {b : BlockId} {n : Nat} {K : Context ι V} {s t u : State}

variable {β : Type} {L : Context β V} {ev : ι → StateM σ β} {fs : List Callable} {c : BlockId}
  {x : String} {r : Resolved} {v : InstId}

/-- Code is emitted after names have been captured. -/
theorem Piece.captured (hready : Ready S.firstId n ctx b s) (hm : u.module = s.module)
    (hcap : s.scopes.Captured (s.scopes.chain ctx.scope) u.scopes) (hsound : u.scopes.Sound)
    (h : Piece S B ctx b K [] u t c L ev fs) : Piece S B ctx b K [] s t c L ev fs := by
  have hsu : s.Grows B ctx.func ctx.scope False b [] u :=
    .of_module hm (hcap.grows (fun _ => hsound) _) (by rw [hcap.bodies]) b
  have hsilent : Piece S B ctx b K [] s u b (.any Unit V) (fun _ => pure ()) [] := by
    have hlen : u.len ctx.func b = s.len ctx.func b := by
      unfold State.len State.block? State.fn?
      rw [hm]
    have hblock : u.blockCount ctx.func = s.blockCount ctx.func := by
      unfold State.blockCount State.fn?
      rw [hm]
    refine ⟨hsu.weaken False.elim, .inl rfl, by rw [hblock]; exact hready.block, fun _ => "", ?_⟩
    intro caps A F _ _ i prev regs w _ _
    rw [hlen]
    exact ⟨prev, regs, .refl _, fun _ _ => rfl, trivial⟩
  have hlift : Piece S B ctx b (K.push (.any Unit V)) [] u t c L (fun p => ev p.1) fs := by
    obtain ⟨hg, hnext, hlt, names, hruns⟩ := h
    exact ⟨hg, hnext, hlt, names, fun caps A F hw hann p prev regs w hK =>
      hruns caps A F hw hann p.1 prev regs w hK.2⟩
  exact hsilent.andThen (fun i _ => ev i) hready hlift

theorem slotAddress_piece (hready : Ready S.firstId n ctx b s)
    (hbind : (s.scopes.get ctx.scope).binding? x = some r)
    (hrun : slotAddress ctx b r.binding s = .ok v t) :
    Piece S B ctx b K [] s t b (.register v) (fun _ => S.address x) [] := by
  rcases Scope.binding?_cases hbind with ⟨i, hown, hr⟩ | ⟨slot, hown, hr⟩ | ⟨_, hr⟩
  · rw [hr] at hrun
    have hrun : emit ctx b (.arg i.toUInt32) s = .ok v t := hrun
    rw [emit_eq] at hrun
    cases hrun
    refine .push (fun _ => x) hready fun caps A _ hslot j prev regs w _ hsees => ⟨_, rfl, ?_⟩
    rw [hsees.parameter x i hown, hslot]
    rfl
  · have hrun : (pure slot : Emit InstId) s = .ok v t := by
      rcases hr with hr | hr | hr <;> rw [hr] at hrun <;> exact hrun
    cases hrun
    refine ⟨.of_module rfl (.refl _ _ _) rfl b, .inl rfl, hready.block, fun _ => "", ?_⟩
    intro caps A F _ _ i prev regs w _ hsees
    obtain ⟨hlt, a, ha, haddr⟩ := hsees.cell x v hown
    rw [haddr]
    exact ⟨prev, regs, .refl _, fun _ _ => rfl, hlt, ha⟩
  · obtain ⟨index, c, hget, hname, rfl⟩ := (hready.sound.indexed ctx.scope).getElem?_capture hr
    have hrun : emit ctx b (.capture index.toUInt32) s = .ok v t := hrun
    rw [emit_eq] at hrun
    cases hrun
    refine .push (fun _ => x) hready fun caps A hcaps hslot j prev regs w _ hsees => ⟨_, rfl, ?_⟩
    obtain ⟨more, hmore⟩ := hcaps
    have hcap : caps[index]? = some c := by
      rw [← hmore, Scope.Arena.captures,
        List.getElem?_append_left (List.getElem?_eq_some_iff.mp hget).1]
      exact hget
    have haddr := hsees.capture _ c hcap
    rw [hname] at haddr
    rw [haddr, hslot]
    rfl

theorem found_piece (hready : Ready S.firstId n ctx b s)
    (hlook : naming (Naming.lookup ctx.scope x tolerant upper) s = .ok (some r) u)
    (hrun : slotAddress ctx b r.binding u = .ok v t) :
    Piece S B ctx b K [] s t b (.register v) (fun _ => S.address x) [] := by
  obtain ⟨hm, hcap, hsound, _, hbind⟩ := lookup_ok hready.sound hlook
  have hsu : s.Grows B ctx.func ctx.scope False b [] u :=
    .of_module hm (hcap.grows (fun _ => hsound) _) (by rw [hcap.bodies]) b
  have hblock : b < u.blockCount ctx.func := Nat.lt_of_lt_of_le hready.block hsu.blockCount
  exact .captured hready hm hcap hsound (slotAddress_piece (hready.grown hsu hblock) (hbind r rfl) hrun)

theorem capturedAddress_does (x : String) :
    Does S B ctx b n K [] (capturedAddress ctx b x) (fun _ => b) Context.register
      (fun _ => S.address x) [] := by
  intro s v t hready hrun
  obtain ⟨r, u, hlook, hrun⟩ := run_bind hrun
  cases r with
  | none => cases hrun
  | some r => exact found_piece hready hlook hrun

theorem capturedAddresses_does (names : List String) :
    Does S B ctx b n K [] (capturedAddresses ctx b names) (fun _ => b) Context.registers
      (fun _ => S.addresses names) [] := by
  induction names generalizing ι K with
  | nil => exact .pure rfl fun _ _ _ _ => .nil
  | cons x xs ih =>
    refine .bind (capturedAddress_does x) fun v => .bind ih fun vs => ?_
    exact .pure rfl fun _ _ _ h => .cons h.2.1 h.1

theorem nameAddress_does (x : String) (write : Bool) :
    Does S B ctx b n K [] (nameAddress ctx b x write) (fun _ => b) Context.register
      (fun _ => S.address x) [] := by
  intro s v t hready hrun
  obtain ⟨r, u, hlook, hrun⟩ := run_bind hrun
  cases r with
  | none =>
    obtain ⟨hm, hcap, hsound, hglobal, _⟩ := lookup_ok hready.sound hlook
    have hsu : s.Grows B ctx.func ctx.scope False b [] u :=
      .of_module hm (hcap.grows (fun _ => hsound) _) (by rw [hcap.bodies]) b
    have hrun : emit ctx b (.getGlobal x) u = .ok v t := hrun
    rw [emit_eq] at hrun
    cases hrun
    refine .captured hready hm hcap hsound (.push (fun _ => "") (hready.grown hsu
      (Nat.lt_of_lt_of_le hready.block hsu.blockCount)) ?_)
    intro caps A _ _ j prev regs w _ hsees
    refine ⟨_, rfl, ?_⟩
    rw [hsees.global x fun l hl => ?_]
    · rfl
    · rw [hcap.own?]
      exact hglobal rfl l (by rwa [hsu.scopes.chain hready.scope] at hl)
  | some r =>
    dsimp only at hrun
    split at hrun
    · cases hrun
    · exact found_piece hready hlook hrun

/-- What is taken down about the uses of names is not code. -/
theorem Piece.recorded {decl : List String} (h : Piece S B ctx b K decl s t c L ev fs)
    (uses : Array Use) : Piece S B ctx b K decl s { t with uses } c L ev fs := by
  obtain ⟨⟨⟨hscopes, hcount, hid, hothers, hmade, hpaired⟩, hinsts, hic, hbc, hblocks, hblock⟩, hnext,
    hlt, names, hruns⟩ := h
  refine ⟨⟨⟨hscopes, hcount, hid, hothers, hmade, hpaired⟩, hinsts, hic, hbc, hblocks, hblock⟩, hnext,
    hlt, names, fun caps A F hw => ?_⟩
  exact hruns caps A F ⟨⟨hw.link.inst, hw.link.block⟩, hw.named, hw.captures, hw.fits⟩

theorem identifierAddress_does (x : String) (write : Bool) :
    Does S B ctx b n K [] (identifierAddress ctx b x write) (fun _ => b) Context.register
      (fun _ => S.address x) [] := by
  intro s v t hready hrun
  obtain ⟨address, u, hname, hrun⟩ := run_bind hrun
  cases hrun
  exact (nameAddress_does x write s v u hready hname).recorded _

end Run

end ScriptIr
