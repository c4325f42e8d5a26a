import ScriptIr.Code.Dump
import ScriptIr.Proofs.Code.ReadsBack

/-!
# Dumps and listings

A dump names the instructions that have a value, a listing numbers all instructions. For a verified
module both are renderings of the same lines: `Line` holds what a line says, `Line.dump` and
`Line.listing` how either text says it.

* `Inst.dump_eq`: the dump of an instruction is its mnemonic and the texts of its fields.
* `Function.dump_lines`, `Function.listing_lines`: both texts, line by line.
-/
namespace ScriptIr

/-! ## Lines -/

def Unbroken (s : String) : Prop := '\n' ∉ s.toList

instance (s : String) : Decidable (Unbroken s) := inferInstanceAs (Decidable ('\n' ∉ s.toList))

/-- A text consists of lines, each ended by a line break. -/
structure HasLines (text : String) (lines : List String) : Prop where
  text_eq : text = String.join (lines.map (· ++ "\n"))
  unbroken : ∀ line ∈ lines, Unbroken line

@[simp] theorem unbroken_append {s t : String} : Unbroken (s ++ t) ↔ Unbroken s ∧ Unbroken t := by
  simp [Unbroken]

@[simp] theorem unbroken_join {texts : List String} :
    Unbroken (String.join texts) ↔ ∀ s ∈ texts, Unbroken s := by
  simp [Unbroken]

theorem unbroken_intercalate {sep : String} {texts : List String} (hsep : Unbroken sep)
    (h : ∀ s ∈ texts, Unbroken s) : Unbroken (String.intercalate sep texts) := by
  induction texts with
  | nil => simp +decide
  | cons s texts ih =>
    obtain ⟨hs, hrest⟩ := List.forall_mem_cons.mp h
    cases texts with
    | nil => simpa using hs
    | cons t texts => simpa [hs, hsep] using ih hrest

theorem unbroken_digits {n : Nat} : '\n' ∉ Nat.toDigits 10 n := fun h =>
  absurd (Nat.isDigit_of_mem_toDigits (by decide) (by decide) h) (by decide)

@[simp] theorem unbroken_repr (n : Nat) : Unbroken n.repr := by
  simp [Unbroken, unbroken_digits]

theorem unbroken_hex (n : Nat) : Unbroken (Text.hex n) := by
  have hdigit : ∀ k < 16, k.digitChar ≠ '\n' := by decide
  unfold Unbroken Text.hex
  rw [String.toList_ofList]
  induction n using Nat.strongRecOn with
  | _ n ih =>
    rw [Nat.toDigits_eq_if (by decide)]
    split
    · next h => simp [(hdigit n h).symm]
    · next h =>
      simp only [List.mem_append, List.mem_singleton, not_or]
      exact ⟨ih _ (by omega), (hdigit _ (Nat.mod_lt _ (by decide))).symm⟩

theorem unbroken_escape (c : Char) : Unbroken (Text.escape c) := by
  unfold Text.escape
  split_ifs with h1 h2 hbreak
  case neg =>
    have hc : c ≠ '\n' := by simpa using hbreak
    simpa [Unbroken] using hc.symm
  all_goals simp +decide [unbroken_hex]

@[simp] theorem unbroken_quoted (s : String) : Unbroken (Text.quoted s) := by
  have hfold : ∀ (cs : List Char) (out : String), Unbroken out →
      Unbroken (cs.foldl (fun out c => out ++ Text.escape c) out) := by
    intro cs
    induction cs with
    | nil => exact fun _ h => h
    | cons c cs ih => exact fun out h => ih _ (unbroken_append.mpr ⟨h, unbroken_escape c⟩)
  simp +decide [Text.quoted, hfold]

@[simp] theorem unbroken_display (bits : UInt64) : Unbroken (Number.display bits) := by
  have hpositional : ∀ d, Unbroken (Number.positional d) := by
    intro d
    have hdigits : ∀ c ∈ Nat.toDigits 10 d.digits, c ≠ '\n' := fun c hc he => unbroken_digits (he ▸ hc)
    unfold Number.positional
    dsimp only
    split_ifs
    · simp [Unbroken, Number.zeros, unbroken_digits]
    · simp only [unbroken_append]
      refine ⟨⟨?_, by decide⟩, ?_⟩
      · simpa [Unbroken] using fun h => hdigits _ (List.mem_of_mem_take h) rfl
      · simpa [Unbroken] using fun h => hdigits _ (List.mem_of_mem_drop h) rfl
    · simp [Unbroken, Number.zeros, unbroken_digits]
  unfold Number.display
  dsimp only
  split_ifs <;> simp +decide [hpositional]

namespace Code

open Wire Inst List

/-! ## What a line says -/

/-- An operand as dumps and listings show it. -/
inductive Shown where
  /-- The value that is named `$result` in dumps and stands in line `@line` of listings. -/
  | value (result line : Nat)
  | block (id : Nat)
  | function (id : Nat)
  | immediate (n : Nat)
  | number (bits : UInt64)
  | text (s : String)
  | regex (s : String)

namespace Shown

def dump : Shown → String
  | value result _ => "$" ++ toString result
  | block id => "blk_" ++ toString id
  | function id => "#" ++ toString id
  | immediate n => toString n
  | number bits => Number.display bits
  | text s => Text.quoted s
  | regex s => s

def listing : Shown → String
  | value _ line => "@" ++ toString line
  | regex s => Text.quoted s
  | o => o.dump

end Shown

/-- What both texts say of an instruction. A value that others can use has a number of its own. -/
structure Line where
  tag : Tag
  result : Option Nat
  operands : List Shown

def pairs : List String → List (String × String)
  | a :: b :: rest => (a, b) :: pairs rest
  | _ => []

def bracketed (texts : List String) : String := "[" ++ String.intercalate ", " texts ++ "]"

/-- The operands of an instruction in a dump, with their punctuation. -/
def punctuate (tag : Tag) (texts : List String) : String :=
  match tag with
  | .array => " " ++ bracketed texts
  | .func | .arrow | .pushScope => " " ++ texts.headD "" ++ " " ++ bracketed texts.tail
  | .object =>
    " \x7b" ++ String.intercalate "," ((pairs texts).map fun (k, v) => " " ++ k ++ ": " ++ v) ++ " \x7d"
  | .phi => String.join ((pairs texts).map fun (block, v) => " [" ++ block ++ " " ++ v ++ "]")
  | _ => String.join (texts.map (" " ++ ·))

namespace Line

def dump (l : Line) : String :=
  "    " ++ ((l.result.map fun n => "$" ++ toString n ++ " = ").getD "" ++ l.tag.mnemonic
    ++ punctuate l.tag (l.operands.map Shown.dump))

def listing (number : Nat) (l : Line) : String :=
  "    @" ++ toString number ++ " " ++ l.tag.mnemonic
    ++ String.join (l.operands.map fun o => " " ++ o.listing)

def ofBlocks (render : Nat → Line → String) (index first : Nat) : List (List Line) → List String
  | [] => []
  | lines :: rest =>
    ("  blk_" ++ toString index ++ ":") :: (lines.zipIdx first).map (fun (l, n) => render n l)
      ++ ofBlocks render (index + 1) (first + lines.length) rest

end Line

def Defines (blocks : List (List Line)) (k n : Nat) : Prop :=
  blocks.flatten[k]?.bind Line.result = some n

/-- The dump of a function and the listing of flat code say the same, block by block and line by line.
Results are numbered in the order of the lines, on the instructions that have a value, and the value of
an operand is named in the dump by its number and in the listing by the line that defines it. -/
structure Function.SaysSame (f : Function) (d : Flat.Function) (blocks : List (List Line)) : Prop where
  dump : ∃ header, HasLines f.dump (header :: Line.ofBlocks (fun _ => Line.dump) 0 0 blocks)
  listing : ∃ header, HasLines d.listing (header :: Line.ofBlocks Line.listing 0 0 blocks)
  lines : Forall₂ (fun (ids : Block) lines => Forall₂ (fun id (l : Line) =>
    ∃ inst, f.insts[id]? = some inst ∧ l.tag = inst.tag ∧ l.result.isSome = inst.hasValue)
      ids.toList lines) f.blocks.toList blocks
  results : ∃ count, blocks.flatten.filterMap Line.result = range count
  operands : ∀ l ∈ blocks.flatten, ∀ n m, .value n m ∈ l.operands → ∀ k, Defines blocks k n ↔ k = m

/-! ## Instructions -/

def fieldText (names : Array (Option Nat)) (tag : Tag) : Field → String
  | .value id => operandName names id
  | .block id => showBlock id
  | .function id => showFunc id
  | .immediate n => toString n.toNat
  | .number bits => Number.display bits
  | .text s => if tag = .regex then s else Text.quoted s

theorem map_pairs {α : Type} (g h : α → Field) (text : Field → String) (as : List α) :
    pairs ((as.flatMap fun a => [g a, h a]).map text) = as.map fun a => (text (g a), text (h a)) := by
  induction as with
  | nil => rfl
  | cons a as ih => simpa [pairs] using ih

theorem Inst.dump_eq (names : Array (Option Nat)) (inst : Inst) : inst.dump names
    = inst.tag.mnemonic ++ punctuate inst.tag (inst.fields.map (fieldText names inst.tag)) := by
  cases inst with
  | object props | phi incoming =>
    simp [dump, tag, fields, punctuate, map_pairs, fieldText, Function.comp_def]
  | array elements => simp [dump, tag, fields, punctuate, bracketed, operandList]; rfl
  | func target captured | arrow target captured | pushScope size captured =>
    simp [dump, tag, fields, punctuate, bracketed, operandList, fieldText]; rfl
  | boolean b => cases b <;> rfl
  | binary op a b =>
    cases op <;> simp [dump, tag, BinaryOp.tag, fields, punctuate, fieldText,
      String.append_assoc]
  | unary op a =>
    cases op <;> simp [dump, tag, UnaryOp.tag, fields, punctuate, fieldText]
  | _ => simp [dump, tag, fields, punctuate, fieldText, String.append_assoc]

theorem mem_of_mem_pairs {texts : List String} {p : String × String} (h : p ∈ pairs texts) :
    p.1 ∈ texts ∧ p.2 ∈ texts := by
  fun_induction pairs texts with
  | case1 a b rest ih => grind
  | case2 => cases h

theorem unbroken_bracketed {texts : List String} (h : ∀ s ∈ texts, Unbroken s) :
    Unbroken (bracketed texts) := by
  have hlist : Unbroken (String.intercalate ", " texts) := unbroken_intercalate (by decide) h
  simp +decide [bracketed, hlist]

theorem unbroken_punctuate {texts : List String} (tag : Tag) (h : ∀ s ∈ texts, Unbroken s) :
    Unbroken (punctuate tag texts) := by
  have hheaded : Unbroken (" " ++ texts.headD "" ++ " " ++ bracketed texts.tail) := by
    cases texts with
    | nil => decide
    | cons s rest =>
      obtain ⟨hs, hrest⟩ := forall_mem_cons.mp h
      simp +decide [hs, unbroken_bracketed hrest]
  have hpair : ∀ p ∈ pairs texts, Unbroken p.1 ∧ Unbroken p.2 := fun p hp =>
    ⟨h _ (mem_of_mem_pairs hp).1, h _ (mem_of_mem_pairs hp).2⟩
  unfold punctuate
  split
  · simp +decide [unbroken_bracketed h]
  · exact hheaded
  · exact hheaded
  · exact hheaded
  · have hlist : Unbroken (String.intercalate ","
        ((pairs texts).map fun (k, v) => " " ++ k ++ ": " ++ v)) := by
      refine unbroken_intercalate (by decide) (forall_mem_map.mpr fun p hp => ?_)
      simp +decide [hpair p hp]
    simp +decide [hlist]
  · refine unbroken_join.mpr (forall_mem_map.mpr fun p hp => ?_)
    simp +decide [hpair p hp]
  · refine unbroken_join.mpr (forall_mem_map.mpr fun s hs => ?_)
    simp +decide [h s hs]

@[simp] theorem unbroken_mnemonic (tag : Tag) : Unbroken tag.mnemonic := by
  cases tag <;> decide

/-- Only a regular expression can break a line. -/
theorem Line.unbroken {l : Line} (h : ∀ s, .regex s ∈ l.operands → Unbroken s) :
    Unbroken l.dump ∧ ∀ n, Unbroken (l.listing n) := by
  have hshown : ∀ o ∈ l.operands, Unbroken o.dump ∧ Unbroken o.listing := by
    intro o ho
    cases o with
    | regex s => exact ⟨h s ho, unbroken_quoted s⟩
    | _ => simp +decide [Shown.dump, Shown.listing]
  have hoperands := unbroken_punctuate l.tag (forall_mem_map.mpr fun o ho => (hshown o ho).1)
  constructor
  · cases hresult : l.result <;> simp +decide [Line.dump, hresult, hoperands]
  · intro n
    have hlist : Unbroken (String.join (l.operands.map fun o => " " ++ o.listing)) := by
      refine unbroken_join.mpr (forall_mem_map.mpr fun o ho => ?_)
      simp +decide [(hshown o ho).2]
    simp +decide [Line.listing, hlist]

theorem Line.unbroken_ofBlocks {render : Nat → Line → String} {blocks : List (List Line)}
    (h : ∀ l ∈ blocks.flatten, ∀ n, Unbroken (render n l)) (index first : Nat) :
    ∀ s ∈ ofBlocks render index first blocks, Unbroken s := by
  induction blocks generalizing index first with
  | nil => exact fun s hs => nomatch hs
  | cons lines rest ih =>
    rw [ofBlocks, cons_append, forall_mem_cons, forall_mem_append, forall_mem_map]
    refine ⟨by simp +decide, fun e he => ?_, ih (fun l hl => h l (mem_append_right _ hl)) _ _⟩
    exact h e.1 (mem_append_left _ (fst_mem_of_mem_zipIdx he)) e.2

/-! ## The lines of a function -/

namespace Function

variable {f : Function} {ids : Block} {id v : InstId} {inst : Inst}

/-- What both texts say of a field of an instruction with the tag. -/
def shown (f : Function) (tag : Tag) : Field → Shown
  | .value id => .value ((f.valueNames.getD id none).getD 0) (f.number id).toNat
  | .block id => .block id
  | .function id => .function id.toNat
  | .immediate n => .immediate n.toNat
  | .number bits => .number bits
  | .text s => if tag = .regex then .regex s else .text s

def line (f : Function) (id : InstId) : Line :=
  let inst := f.insts.getD id default
  ⟨inst.tag, f.valueNames.getD id none, inst.fields.map (f.shown inst.tag)⟩

def lines (f : Function) : List (List Line) := f.blocks.toList.map fun ids => ids.toList.map f.line

theorem flatten_lines (f : Function) : f.lines.flatten = f.order.map f.line := by
  simp [lines, order, flatMap_def, map_flatten, Function.comp_def]

/-- A verified function that can be counted with 32 bits. -/
structure Sound (f : Function) : Prop where
  placed : f.Placed
  verified : f.violation? = none
  small : f.Small

theorem Sound.refers (h : f.Sound) (hb : ids ∈ f.blocks) (hid : id ∈ ids.toList) :
    f.insts[id]? = some (f.insts.getD id default) ∧ f.Refers (f.insts.getD id default) := by
  have hid' := Array.mem_toList_iff.mp hid
  have hlt := h.placed.mem_order.mp (mem_order_of_mem_block hb hid')
  have hget : f.insts[id]? = some (f.insts.getD id default) := by
    simp [Array.getD_eq_getD_getElem?, hlt]
  exact ⟨hget, (((violation?_eq_none_iff h.placed).mp h.verified) ids hb).2 id hid' _ hget⟩

theorem Sound.name (h : f.Sound) (hv : v ∈ f.order ∧ f.producesValue v = true) :
    ∃ n, f.valueNames.getD v none = some n := by
  rw [valueNames_getD h.placed]
  exact Option.isSome_iff_exists.mp (isSome_idxOf?.mpr (mem_filter.mpr hv))

theorem Sound.fieldText_eq (h : f.Sound) (hr : f.Refers inst) {field : Field} (hf : field ∈ inst.fields) :
    fieldText f.valueNames inst.tag field = (f.shown inst.tag field).dump := by
  cases field with
  | value v =>
    obtain ⟨n, hn⟩ := h.name (hr.1 v (mem_operands.mpr hf))
    simp only [fieldText, operandName, shown, hn, Shown.dump, Option.getD_some]
  | text s =>
    simp only [fieldText, shown]
    split <;> rfl
  | _ => rfl

theorem Sound.display_eq (h : f.Sound) (hr : f.Refers inst) {field : Field} (hf : field ∈ inst.fields) :
    (flatField f.number field).display = (f.shown inst.tag field).listing := by
  cases field with
  | block t =>
    have hlt := hr.2 t (mem_blockRefs.mpr hf)
    simp only [flatField, Flat.Operand.display, toNat_toUInt32 (Nat.lt_trans hlt h.small.2)]
    rfl
  | text s =>
    simp only [flatField, shown]
    split <;> rfl
  | _ => rfl

theorem Sound.dumpInst_eq (h : f.Sound) (hb : ids ∈ f.blocks) (hid : id ∈ ids.toList) :
    f.dumpInst f.valueNames id = (f.line id).dump ++ "\n" := by
  obtain ⟨hget, hrefers⟩ := h.refers hb hid
  have hfields : (f.line id).operands.map Shown.dump
      = (f.insts.getD id default).fields.map (fieldText f.valueNames (f.line id).tag) := by
    simp only [line, map_map]
    exact map_congr_left fun field hf => (h.fieldText_eq hrefers hf).symm
  rw [Line.dump, hfields]
  simp only [dumpInst, hget, Option.map_some, Option.getD_some, dump_eq, line, String.append_assoc]
  cases f.valueNames.getD id none <;> rfl

theorem Sound.display_flatInst (h : f.Sound) (hb : ids ∈ f.blocks) (hid : id ∈ ids.toList) (n : Nat) :
    "    @" ++ toString n ++ " " ++ (flatInst f.number (f.insts.getD id default)).display
      = (f.line id).listing n := by
  have hfields : (flatInst f.number (f.insts.getD id default)).operands.map (fun o => " " ++ o.display)
      = (f.line id).operands.map fun o => " " ++ o.listing := by
    simp only [line, flatInst, map_map]
    exact map_congr_left fun field hf =>
      congrArg (" " ++ ·) (h.display_eq (h.refers hb hid).2 hf)
  rw [Flat.Inst.display, hfields, Line.listing, ← String.append_assoc]
  rfl

theorem Sound.dump_blocks (h : f.Sound) (index first : Nat) {blocks : List Block}
    (hall : ∀ ids ∈ blocks, ids ∈ f.blocks) :
    String.join ((blocks.zipIdx index).map fun (ids, b) => f.dumpBlock f.valueNames b ids)
      = String.join ((Line.ofBlocks (fun _ => Line.dump) index first
          (blocks.map fun ids => ids.toList.map f.line)).map (· ++ "\n")) := by
  induction blocks generalizing index first with
  | nil => rfl
  | cons ids rest ih =>
    have hlines : ids.toList.map (f.dumpInst f.valueNames)
        = (((ids.toList.map f.line).zipIdx first).map fun e => Line.dump e.1).map (· ++ "\n") := by
      have hfst : ((ids.toList.map f.line).zipIdx first).map (fun e => Line.dump e.1)
          = ids.toList.map fun id => (f.line id).dump := by
        refine (map_map (f := Prod.fst) (g := Line.dump)).symm.trans ?_
        rw [zipIdx_map_fst, map_map]
        rfl
      rw [hfst, map_map]
      exact map_congr_left fun id hid => h.dumpInst_eq (hall ids mem_cons_self) hid
    rw [zipIdx_cons, map_cons, map_cons, Line.ofBlocks, cons_append, map_cons,
      map_append, String.join_cons, String.join_cons, String.join_append,
      ih _ _ fun ids hids => hall ids (mem_cons_of_mem _ hids)]
    simp only [dumpBlock, hlines, showBlock, String.append_assoc]
    rfl

theorem Sound.listing_blocks (h : f.Sound) (index first : Nat) {blocks : List Block}
    (hall : ∀ ids ∈ blocks, ids ∈ f.blocks) :
    Flat.Function.listBlocks index first
        (blocks.map fun ids => (f.instsOf ids).map (flatInst f.number))
      = String.join ((Line.ofBlocks Line.listing index first
          (blocks.map fun ids => ids.toList.map f.line)).map (· ++ "\n")) := by
  induction blocks generalizing index first with
  | nil => rfl
  | cons ids rest ih =>
    have hinsts : f.instsOf ids = ids.toList.map (f.insts.getD · default) := by
      rw [instsOf, ← filterMap_eq_map]
      exact filterMap_congr fun id hid => (h.refers (hall ids mem_cons_self) hid).1
    have hlines : Flat.Function.listBlock first ((f.instsOf ids).map (flatInst f.number))
        = String.join ((((ids.toList.map f.line).zipIdx first).map fun e => Line.listing e.2 e.1).map
          (· ++ "\n")) := by
      rw [Flat.Function.listBlock, hinsts, map_map, zipIdx_map, zipIdx_map, map_map,
        map_map, map_map]
      refine congrArg String.join (map_congr_left fun e he => ?_)
      exact congrArg (· ++ "\n") (h.display_flatInst (hall ids mem_cons_self)
        (fst_mem_of_mem_zipIdx he) e.2)
    rw [map_cons, map_cons, Flat.Function.listBlocks, Line.ofBlocks, cons_append,
      map_cons, map_append, String.join_cons, String.join_append, hlines,
      ih _ _ fun ids hids => hall ids (mem_cons_of_mem _ hids)]
    simp [String.append_assoc, hinsts]

theorem eq_regex_of_tag {s : String} (htag : inst.tag = .regex) (hs : .text s ∈ inst.fields) :
    inst = .regex s := by
  cases inst with
  | regex t => simpa [fields, eq_comm] using hs
  | boolean b => cases b <;> cases htag
  | binary op a b => cases op <;> cases htag
  | unary op a => cases op <;> cases htag
  | _ => cases htag

theorem Sound.unbroken_lines (h : f.Sound) (hregex : ∀ s, .regex s ∈ f.insts → Unbroken s) :
    ∀ l ∈ f.lines.flatten, Unbroken l.dump ∧ ∀ n, Unbroken (l.listing n) := by
  intro l hl
  rw [flatten_lines] at hl
  obtain ⟨id, hid, rfl⟩ := mem_map.mp hl
  refine Line.unbroken fun s hs => hregex s ?_
  have hget : f.insts.getD id default ∈ f.insts := by
    simp [Array.getD_eq_getD_getElem?, h.placed.mem_order.mp hid]
  obtain ⟨field, hfield, hshown⟩ := mem_map.mp hs
  generalize f.insts.getD id default = inst at hget hfield hshown
  cases field with
  | text t =>
    rw [shown] at hshown
    split at hshown
    · next htag =>
      cases hshown
      rwa [eq_regex_of_tag htag hfield] at hget
    · cases hshown
  | _ => cases hshown

theorem Sound.dump_lines (h : f.Sound) (hregex : ∀ s, .regex s ∈ f.insts → Unbroken s) :
    ∃ header, HasLines f.dump (header :: Line.ofBlocks (fun _ => Line.dump) 0 0 f.lines) := by
  refine ⟨"function " ++ showFunc f.id ++ " " ++ Text.quoted f.name ++ " (params: "
    ++ toString f.paramCount.toNat ++ ")", ?_, ?_⟩
  · rw [map_cons, String.join_cons, lines, ← h.dump_blocks 0 0 fun _ => Array.mem_toList_iff.mp]
    simp only [dump, String.append_assoc]
    rfl
  · refine forall_mem_cons.mpr ⟨?_, Line.unbroken_ofBlocks
      (fun l hl _ => (h.unbroken_lines hregex l hl).1) 0 0⟩
    simp +decide [showFunc]

theorem Sound.listing_lines (h : f.Sound) (hregex : ∀ s, .regex s ∈ f.insts → Unbroken s) :
    ∃ header, HasLines f.flat.listing (header :: Line.ofBlocks Line.listing 0 0 f.lines) := by
  refine ⟨"function " ++ Text.quoted f.name ++ " (params: " ++ toString f.paramCount.toNat ++ ")", ?_, ?_⟩
  · rw [map_cons, String.join_cons, lines, ← h.listing_blocks 0 0 fun _ => Array.mem_toList_iff.mp]
    simp only [Flat.Function.listing, String.append_assoc]
    rfl
  · refine forall_mem_cons.mpr ⟨?_, Line.unbroken_ofBlocks
      (fun l hl => (h.unbroken_lines hregex l hl).2) 0 0⟩
    simp +decide

/-! ## Names and lines -/

theorem filterMap_idxOf?_filter {ids : List InstId} (hn : ids.Nodup) (p : InstId → Bool) :
    ids.filterMap (ids.filter p).idxOf? = range (ids.filter p).length := by
  have hfilter : ids.filterMap (ids.filter p).idxOf? = (ids.filter p).filterMap (ids.filter p).idxOf? := by
    rw [filterMap_filter]
    refine filterMap_congr fun id _ => ?_
    split
    · rfl
    · next hp => exact idxOf?_eq_none_iff.mpr fun hm => hp (mem_filter.mp hm).2
  rw [hfilter]
  have hn' := hn.filter p
  generalize ids.filter p = named at hn'
  have hmap : named.map named.idxOf? = (range named.length).map some := by
    refine ext_getElem (by simp) fun n h1 h2 => ?_
    have hlt : n < named.length := by simpa using h1
    simpa using (idxOf?_eq_some hn').mpr (getElem?_eq_getElem hlt)
  have hself : named.filterMap named.idxOf? = (named.map named.idxOf?).filterMap fun n => n := by
    rw [filterMap_map]
    rfl
  rw [hself, hmap, filterMap_map]
  exact filterMap_some

theorem Sound.defines_iff (h : f.Sound) (hv : v ∈ f.order ∧ f.producesValue v = true) (k : Nat) :
    Defines f.lines k ((f.valueNames.getD v none).getD 0) ↔ k = (f.number v).toNat := by
  obtain ⟨n, hn⟩ := h.name hv
  have hnumber := number_numbered h.placed h.small hv.1
  unfold Defines
  rw [flatten_lines, hn, Option.getD_some, getElem?_map]
  constructor
  · intro hk
    obtain ⟨l, hl, hresult⟩ := Option.bind_eq_some_iff.mp hk
    obtain ⟨w, hw, rfl⟩ := Option.map_eq_some_iff.mp hl
    change f.valueNames.getD w none = some n at hresult
    rw [valueNames_getD h.placed, idxOf?_eq_some (h.placed.nodup.filter _)] at hn hresult
    cases hn.symm.trans hresult
    exact Option.some.inj (((idxOf?_eq_some h.placed.nodup).mpr hw).symm.trans hnumber)
  · rintro rfl
    rw [(idxOf?_eq_some h.placed.nodup).mp hnumber]
    exact hn

theorem Sound.saysSame (h : f.Sound) (hregex : ∀ s, .regex s ∈ f.insts → Unbroken s) :
    f.SaysSame f.flat f.lines where
  dump := h.dump_lines hregex
  listing := h.listing_lines hregex
  lines := forall₂_map_self fun ids hids => forall₂_map_self fun id hid => by
    have hb := Array.mem_toList_iff.mp hids
    obtain ⟨hget, -⟩ := h.refers hb hid
    refine ⟨_, hget, rfl, ?_⟩
    have hmem := mem_order_of_mem_block hb (Array.mem_toList_iff.mp hid)
    change (f.valueNames.getD id none).isSome = _
    rw [valueNames_getD h.placed, Bool.eq_iff_iff, isSome_idxOf?, mem_filter]
    rw [producesValue, hget]
    exact and_iff_right hmem
  results := by
    refine ⟨(f.order.filter f.producesValue).length, ?_⟩
    rw [flatten_lines, filterMap_map, ← filterMap_idxOf?_filter h.placed.nodup]
    exact filterMap_congr fun id _ => valueNames_getD h.placed id
  operands l hl n m hvalue k := by
    obtain ⟨ls, hls, hl⟩ := mem_flatten.mp hl
    obtain ⟨ids, hids, rfl⟩ := mem_map.mp hls
    obtain ⟨id, hid, rfl⟩ := mem_map.mp hl
    obtain ⟨-, hrefers⟩ := h.refers (Array.mem_toList_iff.mp hids) hid
    obtain ⟨field, hfield, hshown⟩ := mem_map.mp hvalue
    generalize f.insts.getD id default = inst at hrefers hfield hshown
    cases field with
    | value v =>
      cases hshown
      exact h.defines_iff (hrefers.1 v (mem_operands.mpr hfield)) k
    | text t =>
      rw [shown] at hshown
      split at hshown <;> cases hshown
    | _ => cases hshown

end Function

namespace Module

/-- **Dumps and listings.** For a module that the verifier accepts, whose file is below 2^32 bytes and
whose regular expressions have no line breaks: each section of the file can be decoded, and the dump of
the function and the listing of the decoded code say the same. -/
theorem dump_and_listing_agree (m : Module) (hbuilt : ∀ f ∈ m.functions, f.Built)
    (hverify : m.verify = .ok ()) (hsize : ∀ bytes, m.toBytes = .ok bytes → bytes.size < 2 ^ 32)
    (hregex : ∀ f ∈ m.functions, ∀ s, .regex s ∈ f.insts → Unbroken s) :
    ∃ c file, m.container = .ok c ∧ ModuleFile.parse c.toBytes = .ok file ∧
      List.Forall₂ (fun (f : Function) payload => ∃ d blocks,
        Flat.Function.decode file payload = .ok d ∧ f.SaysSame d blocks)
        m.functions.toList file.functions := by
  obtain ⟨c, file, hc, hparse, -, hreads⟩ := container_reads m hbuilt hverify hsize
  refine ⟨c, file, hc, hparse, hreads.imp fun f payload ⟨hf, hp, hv, hsmall, hdecode⟩ => ?_⟩
  exact ⟨f.flat, f.lines, hdecode, Function.Sound.saysSame ⟨hp, hv, hsmall⟩ (hregex f hf)⟩

/-- A regular expression with a quote, and an instruction without a value between two with one. -/
def searching : Function :=
  let f : Function := { id := 3, name := "search", paramCount := 0 }
  let f := f.newBlock.2
  let f := (f.push 0 (.regex "/\"/g")).2
  let f := (f.push 0 (.pushScope 0 [])).2
  let f := (f.push 0 (.array [0, 0])).2
  (f.push 0 (.ret 2)).2

theorem searching_texts_agree :
    ∃ c file, (Module.mk "m" 4 #[searching]).container = .ok c ∧
      ModuleFile.parse c.toBytes = .ok file ∧ .regex "/\"/g" ∈ searching.insts ∧
      List.Forall₂ (fun (f : Function) payload => ∃ d blocks,
        Flat.Function.decode file payload = .ok d ∧ f.SaysSame d blocks) [searching] file.functions := by
  have hmem : ∀ f ∈ (Module.mk "m" 4 #[searching]).functions, f = searching := fun f hf =>
    List.mem_singleton.mp (List.mem_toArray.mp hf)
  have hbuilt : searching.Built := by
    refine .push _ (.push _ (.push _ (.push _ (.newBlock (.start 3 "search" 0)) ?_) ?_) ?_) ?_
    all_goals decide
  have hsmall : ((Module.mk "m" 4 #[searching]).toBytes.toOption.all
      fun bytes => decide (bytes.size < 2 ^ 32)) = true := by decide +kernel
  have hregex : ∀ i ∈ searching.insts, i.tag = .regex → i = .regex "/\"/g" := by decide +kernel
  obtain ⟨c, file, hc, hparse, hsame⟩ := dump_and_listing_agree (Module.mk "m" 4 #[searching])
    (fun f hf => hmem f hf ▸ hbuilt) (by decide +kernel)
    (fun bytes hbytes => by simpa [hbytes, Except.toOption] using hsmall)
    fun f hf s hs => by cases hregex (.regex s) (hmem f hf ▸ hs) rfl; decide
  exact ⟨c, file, hc, hparse, by decide +kernel, hsame⟩

end Module

end Code

end ScriptIr
