import AwkCore.Proofs.Context.Names
import AwkCore.Proofs.Heap.Shown

/-!
# Tables that grow

The tables of a context hold names and literals. A name is entered once, a literal each time, and
nothing that is in a table ever leaves it or moves. So a place that was answered once stands for the
same in every later context.
-/
namespace AwkCore

namespace Context

def specialTexts : List Bytes := SpecialVariable.all.map fun v => ascii v.name

/-- What the tables hold: the variables that are not special, the functions, both by the words that
they are named by, and the literals. The strings of the literals are all that is out on the heap. -/
structure Tables (c : Context) (own called : List Bytes) (pooled : List Content) : Prop where
  globals : c.globals.toList = initialGlobals ++ own.map fun w => Symbol.new (Utf8.lossy w)
  functions : c.functions.toList = called.map fun w => Function.new (Utf8.lossy w)
  literals : c.literals.toList.map c.heap.content = pooled
  held : c.heap.Held (c.literals.toList.flatMap Value.handles)
  own_plain : ∀ w ∈ own, ∀ b ∈ w, b < 0x80
  called_plain : ∀ w ∈ called, ∀ b ∈ w, b < 0x80

/-- From one context to a later one: the tables only grow, and the literals keep their contents. -/
structure Grows (c d : Context) : Prop where
  globals : c.globals.toList <+: d.globals.toList
  functions : c.functions.toList <+: d.functions.toList
  literals : c.literals.toList <+: d.literals.toList
  contents : ∀ v ∈ c.literals.toList, d.heap.content v = c.heap.content v

variable {c d e : Context} {own called : List Bytes} {pooled : List Content} {w : Bytes}

theorem Grows.refl (c : Context) : c.Grows c :=
  ⟨List.prefix_refl _, List.prefix_refl _, List.prefix_refl _, fun _ _ => rfl⟩

theorem Grows.trans (first : c.Grows d) (later : d.Grows e) : c.Grows e := by
  constructor
  case globals => exact first.globals.trans later.globals
  case functions => exact first.functions.trans later.functions
  case literals => exact first.literals.trans later.literals
  case contents =>
    exact fun v mem => (later.contents v (first.literals.mem mem)).trans (first.contents v mem)

/-- What is at a place of a table is there in one that goes on behind it. -/
theorem map_getElem?_mono {α β : Type} {as bs : List α} (part : as <+: bs) {f g : α → β}
    (same : ∀ a ∈ as, g a = f a) {i : ℕ} {b : β} (at_i : (as[i]?).map f = some b) :
    (bs[i]?).map g = some b := by
  obtain ⟨a, found, rfl⟩ := Option.map_eq_some_iff.mp at_i
  obtain ⟨cs, rfl⟩ := part
  rw [List.getElem?_append_left (List.getElem?_eq_some_iff.mp found).1, found]
  exact congrArg some (same a (List.mem_of_getElem? found))

theorem specialTexts_plain : ∀ w ∈ specialTexts, ∀ b ∈ w, b < 0x80 := by
  decide +kernel

theorem initialGlobals_names :
    (initialGlobals.drop 1).map Symbol.name = specialTexts.map Utf8.lossy := by
  decide +kernel

/-- A name is in a table just if the word that it comes from is. -/
theorem lossy_mem_map {ws : List Bytes} (plains : ∀ v ∈ ws, ∀ b ∈ v, b < 0x80)
    (plain : ∀ b ∈ w, b < 0x80) : Utf8.lossy w ∈ ws.map Utf8.lossy ↔ w ∈ ws := by
  constructor
  · intro mem
    obtain ⟨v, listed, same⟩ := List.mem_map.mp mem
    exact lossy_inj (plains v listed) plain same ▸ listed
  · exact List.mem_map_of_mem

namespace Tables

theorem new (s : Scanner) : (Context.new s).Tables [] [] [] := by
  constructor
  case globals => exact (List.append_nil _).symm
  case functions => rfl
  case literals => rfl
  case held => exact Texts.Held.empty
  case own_plain => exact nofun
  case called_plain => exact nofun

theorem global_listed (tables : c.Tables own called pooled) (plain : ∀ b ∈ w, b < 0x80) :
    Utf8.lossy w ∈ (c.globals.toList.drop 1).map Symbol.name ↔ w ∈ specialTexts ++ own := by
  have names : (c.globals.toList.drop 1).map Symbol.name =
      (specialTexts ++ own).map Utf8.lossy := by
    rw [tables.globals, List.drop_append_of_le_length (by decide), List.map_append,
      initialGlobals_names, List.map_append, List.map_map]
    rfl
  rw [names]
  exact lossy_mem_map (List.forall_mem_append.mpr ⟨specialTexts_plain, tables.own_plain⟩) plain

theorem function_listed (tables : c.Tables own called pooled) (plain : ∀ b ∈ w, b < 0x80) :
    Utf8.lossy w ∈ c.functions.toList.map Function.name ↔ w ∈ called := by
  have names : c.functions.toList.map Function.name = called.map Utf8.lossy := by
    rw [tables.functions, List.map_map]
    rfl
  rw [names]
  exact lossy_mem_map tables.called_plain plain

theorem findOrAddGlobal (tables : c.Tables own called pooled) (plain : ∀ b ∈ w, b < 0x80) :
    let r := c.findOrAddGlobal (Utf8.lossy w)
    r.1.Tables (if w ∈ specialTexts ++ own then own else own ++ [w]) called pooled ∧
      c.Grows r.1 ∧ 0 < r.2 ∧ (r.1.globals.toList[r.2]?).map Symbol.name = some (Utf8.lossy w) := by
  have listed := tables.global_listed plain
  unfold Context.findOrAddGlobal
  cases found : c.findGlobal? (Utf8.lossy w) with
  | some i =>
    have old : w ∈ specialTexts ++ own := by
      rw [← listed]
      by_contra absent
      rw [findGlobal?_none.mpr absent] at found
      cases found
    rw [if_pos old]
    exact ⟨tables, .refl c, findGlobal?_some found⟩
  | none =>
    rw [if_neg (mt listed.mpr (findGlobal?_none.mp found))]
    have appended : (c.addGlobal (Utf8.lossy w)).globals.toList =
        c.globals.toList ++ [Symbol.new (Utf8.lossy w)] := Sequence.toList_append _ _
    refine ⟨?_, ?_, ?_, ?_⟩
    · constructor
      case globals => rw [appended, tables.globals, List.map_append, List.append_assoc]; rfl
      case functions => exact tables.functions
      case literals => exact tables.literals
      case held => exact tables.held
      case own_plain =>
        exact List.forall_mem_append.mpr ⟨tables.own_plain, List.forall_mem_singleton.mpr plain⟩
      case called_plain => exact tables.called_plain
    · exact { Grows.refl c with globals := ⟨_, appended.symm⟩ }
    · rw [Sequence.size_eq, tables.globals, List.length_append]
      exact Nat.add_pos_left (by decide) _
    · rw [appended, Sequence.size_eq, List.getElem?_concat_length]
      rfl

theorem findOrAddFunction (tables : c.Tables own called pooled) (plain : ∀ b ∈ w, b < 0x80) :
    let r := c.findOrAddFunction (Utf8.lossy w)
    r.1.Tables own (if w ∈ called then called else called ++ [w]) pooled ∧ c.Grows r.1 ∧
      (r.1.functions.toList[r.2]?).map Function.name = some (Utf8.lossy w) := by
  have listed := tables.function_listed plain
  unfold Context.findOrAddFunction
  cases found : c.findFunction? (Utf8.lossy w) with
  | some i =>
    have old : w ∈ called := by
      rw [← listed]
      by_contra absent
      rw [findFunction?_none.mpr absent] at found
      cases found
    rw [if_pos old]
    exact ⟨tables, .refl c, findFunction?_some found⟩
  | none =>
    rw [if_neg (mt listed.mpr (findFunction?_none.mp found))]
    have appended : (c.functions.append (Function.new (Utf8.lossy w))).toList =
        c.functions.toList ++ [Function.new (Utf8.lossy w)] := Sequence.toList_append _ _
    refine ⟨?_, ?_, ?_⟩
    · constructor
      case globals => exact tables.globals
      case functions => rw [appended, tables.functions, List.map_append]; rfl
      case literals => exact tables.literals
      case held => exact tables.held
      case own_plain => exact tables.own_plain
      case called_plain =>
        exact List.forall_mem_append.mpr ⟨tables.called_plain, List.forall_mem_singleton.mpr plain⟩
    · exact { Grows.refl c with functions := ⟨_, appended.symm⟩ }
    · simp only [appended, Sequence.size_eq, List.getElem?_concat_length]
      rfl

/-- A new literal leaves the contents of the others, which have their handles still. -/
theorem addLiteral (tables : c.Tables own called pooled) (v : Content) :
    let d := c.addLiteral v
    d.Tables own called (pooled ++ [v]) ∧ c.Grows d ∧
      (d.literals.toList[c.literals.size]?).map d.heap.content = some v := by
  intro d
  obtain ⟨held, kept, content⟩ := tables.held.add v
  have appended : d.literals.toList = c.literals.toList ++ [(c.heap.add v).2] :=
    Sequence.toList_append _ _
  have contents : ∀ u ∈ c.literals.toList, d.heap.content u = c.heap.content u :=
    fun u mem => Heap.content_congr fun r handle =>
      kept r (List.mem_flatMap.mpr ⟨u, mem, handle⟩)
  refine ⟨?_, ?_, ?_⟩
  · constructor
    case globals => exact tables.globals
    case functions => exact tables.functions
    case literals =>
      rw [appended, List.map_append, List.map_congr_left contents, tables.literals]
      exact congrArg (pooled ++ [·]) content
    case held =>
      rw [appended, List.flatMap_append, List.flatMap_singleton]
      exact held.perm List.perm_append_comm
    case own_plain => exact tables.own_plain
    case called_plain => exact tables.called_plain
  · exact { Grows.refl c with literals := ⟨_, appended.symm⟩, contents := contents }
  · rw [appended, Sequence.size_eq, List.getElem?_concat_length]
    exact congrArg some content

end Tables

end Context

end AwkCore
