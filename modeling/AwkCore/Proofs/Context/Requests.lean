import AwkCore.Context.Requests
import AwkCore.Proofs.Context.Tables
import Mathlib.Order.Bounds.Basic

/-!
# Names keep their places

Requests only add to the tables of names, at the end. So a place that was answered once has its name
for good, and a name that was found once is found there ever after. Only adding a global without
looking for it first can enter a name twice.
-/
namespace AwkCore

/-- The first element with a name stands at the least place that has it. -/
theorem findIdx?_eq_some_iff_isLeast {α : Type} {as : List α} {f : α → String} {name : String}
    {i : ℕ} : as.findIdx? (f · = name) = some i ↔ IsLeast {k | (as[k]?).map f = some name} i := by
  have named {k : ℕ} (lt : k < as.length) : (as[k]?).map f = some name ↔ f as[k] = name := by
    rw [List.getElem?_eq_getElem lt, Option.map_some, Option.some.injEq]
  rw [List.findIdx?_eq_some_iff_getElem]
  constructor
  · rintro ⟨lt, here, first⟩
    refine ⟨(named lt).mpr (of_decide_eq_true here), fun k there => ?_⟩
    by_contra before
    have earlier : k < i := Nat.lt_of_not_le before
    exact first k earlier (decide_eq_true ((named (earlier.trans lt)).mp there))
  · rintro ⟨here, least⟩
    obtain ⟨a, at_i, _⟩ := Option.map_eq_some_iff.mp here
    have lt : i < as.length := (List.getElem?_eq_some_iff.mp at_i).1
    refine ⟨lt, decide_eq_true ((named lt).mp here), fun k earlier there => ?_⟩
    have named_k := (named (earlier.trans lt)).mpr (of_decide_eq_true there)
    exact absurd (least named_k) (Nat.not_le.mpr earlier)

/-- What is found in a table is found in one that goes on behind it. -/
theorem findIdx?_mono {α : Type} {as bs : List α} {p : α → Bool} {i : ℕ} (part : as <+: bs)
    (found : as.findIdx? p = some i) : bs.findIdx? p = some i := by
  obtain ⟨cs, rfl⟩ := part
  rw [List.findIdx?_append, found, Option.some_or]

/-- A new name is found at the end of its table. -/
theorem findIdx?_concat {α : Type} {as : List α} {p : α → Bool} {a : α}
    (absent : as.findIdx? p = none) (here : p a = true) :
    (as ++ [a]).findIdx? p = some as.length := by
  rw [List.findIdx?_append, absent, Option.none_or, List.findIdx?_singleton, if_pos here,
    Option.map_some, Nat.zero_add]

namespace Context

/-- The name that a request asks for among the globals. -/
def Request.global? : Request → Option String
  | findGlobal name | addGlobal name | findOrAddGlobal name => some name
  | _ => none

/-- The name that a request asks for among the functions. -/
def Request.function? : Request → Option String
  | findFunction name | findOrAddFunction name => some name
  | _ => none

def globalName? (c : Context) (i : ℕ) : Option String := (c.globals.toList[i]?).map Symbol.name

def functionName? (c : Context) (i : ℕ) : Option String := (c.functions.toList[i]?).map Function.name

/-- From one context to a later one, the tables of names only grow. -/
structure Extends (c d : Context) : Prop where
  globals : c.globals.toList <+: d.globals.toList
  functions : c.functions.toList <+: d.functions.toList

variable {engine : Engine} {c d e : Context} {name : String} {i : ℕ} {request : Request}

theorem Extends.refl (c : Context) : c.Extends c := ⟨List.prefix_refl _, List.prefix_refl _⟩

theorem Extends.trans (first : c.Extends d) (later : d.Extends e) : c.Extends e :=
  ⟨first.globals.trans later.globals, first.functions.trans later.functions⟩

theorem Extends.globalName? (grows : c.Extends d) (named : c.globalName? i = some name) :
    d.globalName? i = some name := map_getElem?_mono grows.globals (fun _ _ => rfl) named

theorem Extends.functionName? (grows : c.Extends d) (named : c.functionName? i = some name) :
    d.functionName? i = some name := map_getElem?_mono grows.functions (fun _ _ => rfl) named

section Find

theorem findGlobal?_isLeast :
    c.findGlobal? name = some i ↔ IsLeast {k | 0 < k ∧ c.globalName? k = some name} i := by
  have shifted (k : ℕ) : ((c.globals.toList.drop 1)[k]?).map Symbol.name = c.globalName? (k + 1) := by
    rw [globalName?, List.getElem?_drop, Nat.add_comm]
  rw [findGlobal?, Option.map_eq_some_iff]
  simp only [findIdx?_eq_some_iff_isLeast, shifted]
  constructor
  · rintro ⟨k, ⟨here, least⟩, rfl⟩
    refine ⟨⟨Nat.succ_pos k, here⟩, ?_⟩
    rintro (_ | j) ⟨positive, there⟩
    · cases positive
    · exact Nat.succ_le_succ (least there)
  · rintro ⟨⟨positive, here⟩, least⟩
    obtain ⟨k, rfl⟩ := Nat.exists_eq_succ_of_ne_zero positive.ne'
    exact ⟨k, ⟨here, fun j there => Nat.le_of_succ_le_succ (least ⟨Nat.succ_pos j, there⟩)⟩, rfl⟩

theorem findFunction?_isLeast :
    c.findFunction? name = some i ↔ IsLeast {k | c.functionName? k = some name} i :=
  findIdx?_eq_some_iff_isLeast

theorem Extends.findGlobal? (grows : c.Extends d) (found : c.findGlobal? name = some i) :
    d.findGlobal? name = some i := by
  obtain ⟨k, place, rfl⟩ := Option.map_eq_some_iff.mp found
  exact Option.map_eq_some_iff.mpr ⟨k, findIdx?_mono (grows.globals.drop 1) place, rfl⟩

theorem Extends.findFunction? (grows : c.Extends d) (found : c.findFunction? name = some i) :
    d.findFunction? name = some i := findIdx?_mono grows.functions found

end Find

section Enter

theorem findOrAddGlobal_found (found : c.findGlobal? name = some i) :
    c.findOrAddGlobal name = (c, i) := by rw [findOrAddGlobal, found]

theorem findOrAddGlobal_absent (absent : c.findGlobal? name = none) :
    c.findOrAddGlobal name = (c.addGlobal name, c.globals.size) := by rw [findOrAddGlobal, absent]

theorem findOrAddFunction_found (found : c.findFunction? name = some i) :
    c.findOrAddFunction name = (c, i) := by rw [findOrAddFunction, found]

theorem findOrAddFunction_absent (absent : c.findFunction? name = none) :
    c.findOrAddFunction name =
      ({ c with functions := c.functions.append (Function.new name) }, c.functions.size) := by
  rw [findOrAddFunction, absent]

/-- The first global is there, which is no variable. -/
def Started (c : Context) : Prop := 0 < c.globals.size

theorem addGlobal_toList (c : Context) (name : String) :
    (c.addGlobal name).globals.toList = c.globals.toList ++ [Symbol.new name] :=
  Sequence.toList_append _ _

theorem addGlobal_tail (started : c.Started) (name : String) :
    (c.addGlobal name).globals.toList.drop 1 = c.globals.toList.drop 1 ++ [Symbol.new name] := by
  have positive : 1 ≤ c.globals.toList.length := started
  rw [addGlobal_toList, List.drop_append_of_le_length positive]

theorem globalName?_addGlobal : (c.addGlobal name).globalName? c.globals.size = some name := by
  rw [globalName?, addGlobal_toList, Sequence.size_eq, List.getElem?_concat_length]
  rfl

/-- A name that is entered is found where it was entered. -/
theorem findGlobal?_findOrAddGlobal (started : c.Started) (name : String) :
    (c.findOrAddGlobal name).1.findGlobal? name = some (c.findOrAddGlobal name).2 := by
  cases found : c.findGlobal? name with
  | some i => rw [findOrAddGlobal_found found, found]
  | none =>
    have absent := Option.map_eq_none_iff.mp found
    rw [findOrAddGlobal_absent found, findGlobal?, addGlobal_tail started,
      findIdx?_concat absent (decide_eq_true rfl), Option.map_some, List.length_drop,
      ← Sequence.size_eq, Nat.sub_add_cancel started]

theorem findFunction?_findOrAddFunction (c : Context) (name : String) :
    (c.findOrAddFunction name).1.findFunction? name = some (c.findOrAddFunction name).2 := by
  cases found : c.findFunction? name with
  | some i => rw [findOrAddFunction_found found, found]
  | none =>
    rw [findOrAddFunction_absent found, findFunction?, Sequence.toList_append]
    exact findIdx?_concat found (decide_eq_true rfl)

end Enter

section Serve

theorem enterLiteral_names (c : Context) (engine : Engine) :
    (c.enterLiteral engine).1.globals = c.globals ∧
      (c.enterLiteral engine).1.functions = c.functions := by
  unfold enterLiteral
  split <;> exact ⟨rfl, rfl⟩

theorem scan_names (ok : c.scan = .ok d) : d.globals = c.globals ∧ d.functions = c.functions := by
  unfold scan at ok
  cases next : c.scanner.next.outcome with
  | error failure =>
    rw [next] at ok
    cases ok
  | ok s =>
    rw [next] at ok
    cases ok
    exact ⟨rfl, rfl⟩

theorem pop_names (c : Context) : c.pop.globals = c.globals ∧ c.pop.functions = c.functions := by
  unfold pop
  split <;> exact ⟨rfl, rfl⟩

/-- A request enters no name, or one global, or one function that was not there. A global that was
looked for first was not there either. -/
theorem serve_cases (engine : Engine) (c : Context) (request : Request) :
    ((c.serve engine request).1.globals = c.globals ∧
      (c.serve engine request).1.functions = c.functions) ∨
    (∃ name, (request = .addGlobal name ∨ c.findGlobal? name = none) ∧
      (c.serve engine request).1 = c.addGlobal name) ∨
    ∃ name, c.findFunction? name = none ∧
      (c.serve engine request).1 =
        { c with functions := c.functions.append (Function.new name) } := by
  cases request with
  | addGlobal name => exact .inr (.inl ⟨name, .inl rfl, rfl⟩)
  | findOrAddGlobal name =>
    cases found : c.findGlobal? name with
    | some i =>
      exact .inl (by simp only [serve, findOrAddGlobal_found found, and_self])
    | none =>
      simp only [serve, findOrAddGlobal_absent found]
      exact .inr (.inl ⟨name, .inr found, rfl⟩)
  | findOrAddFunction name =>
    cases found : c.findFunction? name with
    | some i =>
      exact .inl (by simp only [serve, findOrAddFunction_found found, and_self])
    | none =>
      simp only [serve, findOrAddFunction_absent found]
      exact .inr (.inr ⟨name, found, rfl⟩)
  | enterLiteral => exact .inl (c.enterLiteral_names engine)
  | scan afterFailure =>
    cases scanned : c.scan with
    | ok d =>
      simp only [serve, scanned]
      exact .inl (scan_names scanned)
    | error failure =>
      exact .inl (by simp only [serve, scanned, and_self])
  | pop => exact .inl c.pop_names
  | _ => exact .inl ⟨rfl, rfl⟩

theorem extends_serve (engine : Engine) (c : Context) (request : Request) :
    c.Extends (c.serve engine request).1 := by
  rcases serve_cases engine c request with
    ⟨globals, functions⟩ | ⟨name, _, served⟩ | ⟨name, _, served⟩
  · exact ⟨by rw [globals], by rw [functions]⟩
  · rw [served]
    exact ⟨⟨_, (c.addGlobal_toList name).symm⟩, List.prefix_refl _⟩
  · rw [served]
    exact ⟨List.prefix_refl _, ⟨_, (Sequence.toList_append _ _).symm⟩⟩

theorem serveAll_nil (c : Context) : c.serveAll engine [] = c := rfl

theorem serveAll_cons (c : Context) (request : Request) (requests : List Request) :
    c.serveAll engine (request :: requests) =
      (c.serve engine request).1.serveAll engine requests := rfl

theorem extends_serveAll (engine : Engine) (c : Context) (requests : List Request) :
    c.Extends (c.serveAll engine requests) := by
  induction requests generalizing c with
  | nil => exact .refl c
  | cons request requests ih =>
    exact (extends_serve engine c request).trans (ih (c.serve engine request).1)

theorem Extends.started (grows : c.Extends d) (started : c.Started) : d.Started := by
  rw [Started, Sequence.size_eq] at started ⊢
  exact started.trans_le grows.globals.length_le

/-- A place that is answered among the globals has the name that was asked for. -/
theorem serve_global (started : c.Started)
    (answered : (c.serve engine request).2 = .global (some i)) :
    ∃ name, request.global? = some name ∧ 0 < i ∧
      (c.serve engine request).1.globalName? i = some name := by
  cases request with
  | findGlobal name =>
    simp only [serve, Answer.global.injEq] at answered
    exact ⟨name, rfl, (findGlobal?_isLeast.mp answered).1⟩
  | addGlobal name =>
    simp only [serve, Answer.global.injEq, Option.some.injEq] at answered
    rw [← answered]
    exact ⟨name, rfl, started, globalName?_addGlobal⟩
  | findOrAddGlobal name =>
    simp only [serve, Answer.global.injEq, Option.some.injEq] at answered
    rw [← answered]
    exact ⟨name, rfl, (findGlobal?_isLeast.mp (findGlobal?_findOrAddGlobal started name)).1⟩
  | scan afterFailure =>
    rw [serve] at answered
    split at answered <;> cases answered
  | _ => cases answered

/-- A place that is answered among the functions has the name that was asked for. -/
theorem serve_function (answered : (c.serve engine request).2 = .function (some i)) :
    ∃ name, request.function? = some name ∧
      (c.serve engine request).1.functionName? i = some name := by
  cases request with
  | findFunction name =>
    simp only [serve, Answer.function.injEq] at answered
    exact ⟨name, rfl, (findFunction?_isLeast.mp answered).1⟩
  | findOrAddFunction name =>
    simp only [serve, Answer.function.injEq, Option.some.injEq] at answered
    rw [← answered]
    exact ⟨name, rfl, (findFunction?_isLeast.mp (c.findFunction?_findOrAddFunction name)).1⟩
  | scan afterFailure =>
    rw [serve] at answered
    split at answered <;> cases answered
  | _ => cases answered

/-- The variables, which begin behind the first global, have one name each. -/
def Distinct (c : Context) : Prop := ((c.globals.toList.drop 1).map Symbol.name).Nodup

theorem Distinct.serve (distinct : c.Distinct) (started : c.Started)
    (looked : ∀ name, request ≠ .addGlobal name) : (c.serve engine request).1.Distinct := by
  rcases serve_cases engine c request with ⟨globals, _⟩ | ⟨name, reason, served⟩ | ⟨name, _, served⟩
  · rw [Distinct, globals]
    exact distinct
  · have absent := findGlobal?_none.mp (reason.resolve_left (looked name))
    have entered := List.Nodup.concat absent distinct
    rw [List.concat_eq_append] at entered
    rw [Distinct, served, addGlobal_tail started, List.map_append]
    exact entered
  · rw [served]
    exact distinct

theorem Distinct.serveAll {requests : List Request} (distinct : c.Distinct) (started : c.Started)
    (looked : ∀ name, .addGlobal name ∉ requests) : (c.serveAll engine requests).Distinct := by
  induction requests generalizing c with
  | nil => exact distinct
  | cons request requests ih =>
    have first : ∀ name, request ≠ .addGlobal name := fun name same =>
      looked name (same ▸ List.mem_cons_self)
    exact ih (distinct.serve started first) ((extends_serve engine c request).started started)
      fun name mem => looked name (List.mem_cons_of_mem _ mem)

end Serve

section New

variable (s : Scanner)

theorem new_started : (Context.new s).Started := by
  show 0 < initialGlobals.length
  decide

theorem new_distinct : (Context.new s).Distinct := by
  show ((initialGlobals.drop 1).map Symbol.name).Nodup
  decide +kernel

theorem findGlobal?_special (v : SpecialVariable) :
    (Context.new s).findGlobal? v.name = some v.index := by
  show ((initialGlobals.drop 1).findIdx? (·.name = v.name)).map (· + 1) = some v.index
  cases v <;> decide +kernel

end New

/-- Whatever is asked of a new context, a place that is answered has the name that was asked for, then
and ever after. A name is found at the least place that has it, which is never the first of the globals,
and once it is entered it is found at one place, whatever comes between. The special variables keep the
places from one to sixteen. If every global is looked for before it is entered, no two have one name. -/
theorem serveAll_names (engine : Engine) (s : Scanner) (requests : List Request) :
    let c := (Context.new s).serveAll engine requests
    (∀ request i, let r := c.serve engine request
      r.2 = .global (some i) → ∃ name, request.global? = some name ∧ 0 < i ∧
        ∀ later, (r.1.serveAll engine later).globalName? i = some name) ∧
    (∀ request i, let r := c.serve engine request
      r.2 = .function (some i) → ∃ name, request.function? = some name ∧
        ∀ later, (r.1.serveAll engine later).functionName? i = some name) ∧
    (∀ name i, c.findGlobal? name = some i ↔
      IsLeast {k | 0 < k ∧ c.globalName? k = some name} i) ∧
    (∀ name i, c.findFunction? name = some i ↔ IsLeast {k | c.functionName? k = some name} i) ∧
    (∀ name later, let e := (c.findOrAddGlobal name).1.serveAll engine later
      e.findOrAddGlobal name = (e, (c.findOrAddGlobal name).2)) ∧
    (∀ name later, let e := (c.findOrAddFunction name).1.serveAll engine later
      e.findOrAddFunction name = (e, (c.findOrAddFunction name).2)) ∧
    (∀ v : SpecialVariable, v.index ∈ Set.Icc 1 16 ∧ c.globalName? v.index = some v.name ∧
      c.findGlobal? v.name = some v.index) ∧
    ((∀ name, .addGlobal name ∉ requests) →
      ((c.globals.toList.drop 1).map Symbol.name).Nodup) := by
  intro c
  have grows : (Context.new s).Extends c := extends_serveAll engine _ requests
  have started : c.Started := grows.started (new_started s)
  refine ⟨fun request i answered => ?_, fun request i answered => ?_, fun _ _ => findGlobal?_isLeast,
    fun _ _ => findFunction?_isLeast, fun name later => ?_, fun name later => ?_, fun v => ?_, ?_⟩
  · obtain ⟨name, asked, inside, named⟩ := serve_global started answered
    exact ⟨name, asked, inside, fun later => (extends_serveAll engine _ later).globalName? named⟩
  · obtain ⟨name, asked, named⟩ := serve_function answered
    exact ⟨name, asked, fun later => (extends_serveAll engine _ later).functionName? named⟩
  · have entered := findGlobal?_findOrAddGlobal started name
    exact findOrAddGlobal_found ((extends_serveAll engine _ later).findGlobal? entered)
  · have entered := c.findFunction?_findOrAddFunction name
    exact findOrAddFunction_found ((extends_serveAll engine _ later).findFunction? entered)
  · have found := grows.findGlobal? (findGlobal?_special s v)
    exact ⟨by cases v <;> decide, (findGlobal?_isLeast.mp found).1.2, found⟩
  · exact (new_distinct s).serveAll (new_started s)

/-- A name is entered, looked for and entered again, with other requests between. -/
theorem serveAll_names_again :
    let engine : Engine := ⟨fun _ => none, fun source subject => source <:+: subject⟩
    let s := Scanner.ofProgram (Program.inline (ascii "/a/ x"))
    let between : List Request := [.scan s, .enterLiteral, .findOrAddGlobal "", .emit 7,
      .findOrAddFunction "x", .scan s, .push (.number Binary64.zero), .pop]
    let c := (Context.new s).serveAll engine (.findOrAddGlobal "x" :: between)
    c.globalName? 17 = some "x" ∧ c.findGlobal? "x" = some 17 ∧ c.findOrAddGlobal "x" = (c, 17) ∧
      c.findGlobal? "" = some 18 ∧ ((c.globals.toList.drop 1).map Symbol.name).Nodup := by
  intro engine s between c
  obtain ⟨entered, _, _, _, again, _⟩ := serveAll_names engine s []
  rw [serveAll_nil] at entered again
  obtain ⟨_, _, _, _, _, _, _, distinct⟩ := serveAll_names engine s (.findOrAddGlobal "x" :: between)
  have first (d : Context) : d.serve engine (.findOrAddGlobal "x") =
      ((d.findOrAddGlobal "x").1, .global (some (d.findOrAddGlobal "x").2)) := rfl
  have place : ((Context.new s).findOrAddGlobal "x").2 = 17 := by decide +kernel
  have x_again : c.findOrAddGlobal "x" = (c, 17) := by
    rw [show c = _ from serveAll_cons _ _ _, first, ← place]
    exact again "x" between
  have x_named : c.globalName? 17 = some "x" := by
    have answered : ((Context.new s).serve engine (.findOrAddGlobal "x")).2 = .global (some 17) := by
      rw [first, place]
    obtain ⟨name, asked, _, named⟩ := entered (.findOrAddGlobal "x") 17 answered
    obtain rfl : "x" = name := Option.some.inj asked
    rw [show c = _ from serveAll_cons _ _ _]
    exact named between
  have x_found : c.findGlobal? "x" = some 17 := by decide +kernel
  have empty_found : c.findGlobal? "" = some 18 := by decide +kernel
  exact ⟨x_named, x_found, x_again, empty_found, distinct fun name => by simp [between]⟩

/-- A global that is not looked for may be entered twice. The empty name is found behind the first one. -/
example (engine : Engine) (s : Scanner) :
    let c := (Context.new s).serveAll engine [.addGlobal "x", .addGlobal "x", .findOrAddGlobal ""]
    c.globalName? 17 = some "x" ∧ c.globalName? 18 = some "x" ∧ c.findGlobal? "" = some 19 :=
  ⟨rfl, rfl, rfl⟩

end Context

end AwkCore
