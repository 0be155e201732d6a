import TreeLang.Env
import Mathlib.Data.Finmap
import Mathlib.Data.List.Induction

/-! Scopes as a stack of finite maps. Whatever is done with an environment, its answers are those
of such a stack; they are also those of scopes that stay where they are, each linked to the one
around it, while an environment moves among them. What is done between entering a block and
leaving it again changes no name outside, unless it is declared there, at the level of the block. -/
namespace TreeLang

/-- What can be done with an environment. A name is bound to a cell that is given, and a value is
written through the cell that a name denotes. -/
inductive Env.Op where
  | push
  | pop
  | declare (name : String) (ref : Ref)
  | lookup (name : String)
  | write (name : String) (value : Value)
  deriving DecidableEq

/-- A way to keep scopes. -/
structure Scoping (σ : Type) where
  push : σ → σ
  pop : σ → σ
  declare : σ → String → Ref → Except Failure σ
  lookup : σ → String → Except Failure Ref
  depth : σ → Nat

namespace Scoping

variable {σ τ : Type}

/-- A declaration that fails changes nothing. -/
def move (scoping : Scoping σ) (s : σ) : Env.Op → σ
  | .push => scoping.push s
  | .pop => scoping.pop s
  | .declare name ref =>
    match scoping.declare s name ref with
    | .ok s => s
    | .error _ => s
  | .lookup _ | .write .. => s

def answer (scoping : Scoping σ) (s : σ) (heap : Heap) : Env.Op → Except Failure (Option Ref) × Heap
  | .push | .pop => (.ok none, heap)
  | .declare name ref => ((scoping.declare s name ref).map fun _ => none, heap)
  | .lookup name => ((scoping.lookup s name).map some, heap)
  | .write name value =>
    match scoping.lookup s name with
    | .error failure => (.error failure, heap)
    | .ok ref =>
      match heap.assign ref value with
      | .error failure => (.error failure, heap)
      | .ok heap => (.ok (some ref), heap)

/-- The answer to each operation together with the depth after it, and the cells at the end. -/
def run (scoping : Scoping σ) : σ → Heap → List Env.Op → List (Except Failure (Option Ref) × Nat) × Heap
  | _, heap, [] => ([], heap)
  | s, heap, op :: rest =>
    let (answer, heap) := scoping.answer s heap op
    let s := scoping.move s op
    let (answers, heap) := scoping.run s heap rest
    ((answer, scoping.depth s) :: answers, heap)

def after (scoping : Scoping σ) (s : σ) (ops : List Env.Op) : σ := ops.foldl scoping.move s

/-- A state of the one way is kept alike to one of the other, and nothing can tell them apart. -/
structure Simulates (first : Scoping σ) (second : Scoping τ) (alike : σ → τ → Prop) : Prop where
  push : ∀ {s t}, alike s t → alike (first.push s) (second.push t)
  pop : ∀ {s t}, alike s t → alike (first.pop s) (second.pop t)
  declare : ∀ {s t}, alike s t → ∀ name ref,
    (∃ failure, first.declare s name ref = .error failure ∧ second.declare t name ref = .error failure) ∨
    ∃ s' t', first.declare s name ref = .ok s' ∧ second.declare t name ref = .ok t' ∧ alike s' t'
  lookup : ∀ {s t}, alike s t → ∀ name, first.lookup s name = second.lookup t name
  depth : ∀ {s t}, alike s t → first.depth s = second.depth t

namespace Simulates

variable {first : Scoping σ} {second : Scoping τ} {alike : σ → τ → Prop} {s : σ} {t : τ}

theorem move (simulates : first.Simulates second alike) (related : alike s t) (op : Env.Op) :
    alike (first.move s op) (second.move t op) := by
  cases op with
  | push => exact simulates.push related
  | pop => exact simulates.pop related
  | lookup name => exact related
  | write name value => exact related
  | declare name ref =>
    rcases simulates.declare related name ref with
      ⟨failure, one, other⟩ | ⟨s', t', one, other, again⟩
    · simpa only [Scoping.move, one, other] using related
    · simpa only [Scoping.move, one, other] using again

theorem answer (simulates : first.Simulates second alike) (related : alike s t) (heap : Heap) (op : Env.Op) :
    first.answer s heap op = second.answer t heap op := by
  cases op with
  | push => rfl
  | pop => rfl
  | lookup name => simp only [Scoping.answer, simulates.lookup related]
  | write name value => simp only [Scoping.answer, simulates.lookup related]
  | declare name ref =>
    rcases simulates.declare related name ref with
      ⟨failure, one, other⟩ | ⟨s', t', one, other, -⟩
    · simp only [Scoping.answer, one, other, Except.map]
    · simp only [Scoping.answer, one, other, Except.map]

theorem run (simulates : first.Simulates second alike) (related : alike s t) (heap : Heap)
    (ops : List Env.Op) : first.run s heap ops = second.run t heap ops := by
  induction ops generalizing s t heap with
  | nil => rfl
  | cons op rest ih =>
    have moved := simulates.move related op
    simp only [Scoping.run, simulates.answer related, simulates.depth moved, ih moved]

end Simulates

end Scoping

def Env.scoping : Scoping Env where
  push := pushScope
  pop := popScope
  declare := declare
  lookup := lookup
  depth := depth

/-! ### Finite maps -/

abbrev NameMap := Finmap fun _ : String => Ref

/-- A stack of finite maps that is never empty. -/
structure MapStack where
  top : NameMap
  below : List NameMap

namespace MapStack

def empty : MapStack := ⟨∅, []⟩

def maps (stack : MapStack) : List NameMap := stack.top :: stack.below

/-- The innermost map that has a name decides what it denotes; only the top map is ever added to,
and the last map is never taken away. -/
def scoping : Scoping MapStack where
  push stack := ⟨∅, stack.maps⟩
  pop stack :=
    match stack.below with
    | [] => stack
    | top :: below => ⟨top, below⟩
  declare stack name ref :=
    if name ∈ stack.top then .error (.duplicateVariable name)
    else .ok { stack with top := stack.top.insert name ref }
  lookup stack name :=
    match stack.maps.findSome? (·.lookup name) with
    | some ref => .ok ref
    | none => .error (.undefinedVariable name)
  depth stack := stack.maps.length

end MapStack

def Scope.names (scope : Scope) : NameMap :=
  (scope.bindings.map fun binding => (⟨binding.1, binding.2⟩ : Σ _ : String, Ref)).toFinmap

theorem Scope.lookup_names (scope : Scope) (name : String) : scope.names.lookup name = scope.find? name := by
  rw [Scope.names, Finmap.dlookup_list_toFinmap, Scope.find?]
  induction scope.bindings with
  | nil => rfl
  | cons binding rest ih =>
    rw [List.map_cons, List.lookup_cons]
    by_cases same : name = binding.1
    · subst same
      rw [List.dlookup_cons_eq, beq_self_eq_true]
    · have differs : (name == binding.1) = false := by simpa using same
      rw [List.dlookup_cons_ne _ _ same, differs]
      exact ih

theorem Scope.find?_cons (scope : Scope) (name other : String) (ref : Ref) :
    Scope.find? ⟨(other, ref) :: scope.bindings⟩ name = if name = other then some ref else scope.find? name := by
  rw [Scope.find?, List.lookup_cons]
  by_cases same : name = other
  · subst same
    simp
  · have differs : (name == other) = false := by simpa using same
    rw [differs, if_neg same]
    rfl

theorem Scope.names_cons (scope : Scope) (name : String) (ref : Ref) :
    Scope.names ⟨(name, ref) :: scope.bindings⟩ = scope.names.insert name ref := by
  refine Finmap.ext_lookup fun other => ?_
  rw [Scope.lookup_names, Scope.find?_cons]
  by_cases same : other = name
  · subst same
    rw [if_pos rfl, Finmap.lookup_insert]
  · rw [if_neg same, Finmap.lookup_insert_of_ne _ same, Scope.lookup_names]

theorem Scope.mem_names_iff {scope : Scope} {name : String} :
    name ∈ scope.names ↔ (scope.find? name).isSome := by
  rw [← Scope.lookup_names, Finmap.lookup_isSome]

/-- The names of each scope, innermost first. -/
def Env.maps (env : Env) : MapStack := ⟨env.inner.names, env.outer.map Scope.names⟩

theorem Env.maps_maps (env : Env) : env.maps.maps = env.scopes.map Scope.names := rfl

/-- A name can be declared once in a scope. -/
theorem Env.declare_eq (env : Env) (name : String) (ref : Ref) :
    env.declare name ref =
      if (env.inner.find? name).isSome then .error (.duplicateVariable name)
      else .ok { env with inner := ⟨(name, ref) :: env.inner.bindings⟩ } := by
  unfold Env.declare Scope.declare
  cases env.inner.find? name <;> rfl

theorem Env.simulates_maps : Env.scoping.Simulates MapStack.scoping fun env stack => stack = env.maps where
  push := by
    rintro env _ rfl
    rfl
  pop := by
    rintro ⟨inner, outer⟩ _ rfl
    cases outer <;> rfl
  declare := by
    rintro env _ rfl name ref
    by_cases taken : (env.inner.find? name).isSome
    · refine .inl ⟨.duplicateVariable name, ?_, if_pos (Scope.mem_names_iff.mpr taken)⟩
      exact (env.declare_eq name ref).trans (if_pos taken)
    · refine .inr ⟨_, _, (env.declare_eq name ref).trans (if_neg taken),
        if_neg fun member => taken (Scope.mem_names_iff.mp member), ?_⟩
      simp only [Env.maps, Scope.names_cons]
  lookup := by
    rintro env _ rfl name
    have found : env.maps.maps.findSome? (·.lookup name) = env.find? name := by
      rw [Env.maps_maps, List.findSome?_map, Env.find?]
      exact congrArg (List.findSome? · env.scopes) (funext fun scope => scope.lookup_names name)
    cases here : env.find? name with
    | none => simp only [Env.scoping, MapStack.scoping, Env.lookup, found, here]
    | some ref => simp only [Env.scoping, MapStack.scoping, Env.lookup, found, here]
  depth := by
    rintro env _ rfl
    simp [Env.scoping, MapStack.scoping, Env.depth, Env.maps_maps]

/-! ### Scopes that are linked -/

/-- An environment as a place in a forest of scopes. Those that have been left stay in the forest. -/
structure Place where
  forest : ScopeForest
  current : Nat

namespace Place

def start : Place := ⟨({} : ScopeForest).root, 0⟩

def scoping : Scoping Place where
  push place := ⟨place.forest.child place.current, place.forest.size⟩
  pop place :=
    match place.forest.chain place.current with
    | _ :: parent :: _ => { place with current := parent }
    | _ => place
  declare place name ref :=
    (place.forest.declare place.current name ref).map fun forest => { place with forest }
  lookup place name :=
    match place.forest.find? place.current name with
    | some ref => .ok ref
    | none => .error (.undefinedVariable name)
  depth place := (place.forest.chain place.current).length

end Place

namespace ScopeForest

def scope (forest : ScopeForest) (index : Nat) : Scope := forest.scopes.getD index {}

/-- Each scope is the first of its chain, and what follows is the chain of the scope around it,
which is older. -/
structure Linked (forest : ScopeForest) : Prop where
  size : forest.chains.size = forest.size
  chain : ∀ i, i < forest.size → ∃ around, forest.chain i = i :: around ∧ (∀ j ∈ around, j < i) ∧
    ∀ parent more, around = parent :: more → forest.chain parent = around

variable {forest : ScopeForest} {parents : List Nat} {i : Nat}

theorem chain_grow_of_lt (linked : forest.Linked) (old : i < forest.size) :
    (forest.grow parents).chain i = forest.chain i := by
  have inside : i < forest.chains.size := by rw [linked.size]; exact old
  simp [chain, grow, Array.getD_eq_getD_getElem?, Array.getElem?_push, Nat.ne_of_lt inside]

theorem chain_grow_self (linked : forest.Linked) :
    (forest.grow parents).chain forest.size = forest.size :: parents := by
  simp [chain, grow, Array.getD_eq_getD_getElem?, ← linked.size]

theorem scope_grow : (forest.grow parents).scope i = forest.scope i := by
  by_cases fresh : i = forest.scopes.size
  · subst fresh
    simp [scope, grow, Array.getD_eq_getD_getElem?]
  · simp [scope, grow, Array.getD_eq_getD_getElem?, Array.getElem?_push, fresh]

theorem size_grow : (forest.grow parents).size = forest.size + 1 := Array.size_push ..

theorem Linked.grow_chain (linked : forest.Linked) (inside : i < forest.size) :
    (forest.grow (forest.chain i)).Linked := by
  refine ⟨?_, fun j older => ?_⟩
  · rw [size_grow, ← linked.size]
    exact Array.size_push ..
  obtain ⟨around, chain, below, links⟩ := linked.chain i inside
  by_cases new : j = forest.size
  · subst new
    refine ⟨forest.chain i, chain_grow_self linked, fun k member => ?_, fun parent more first => ?_⟩
    · rw [chain] at member
      rcases List.mem_cons.mp member with rfl | member
      · exact inside
      · exact Nat.lt_trans (below k member) inside
    · rw [chain] at first
      obtain ⟨rfl, rfl⟩ := List.cons.inj first
      exact chain_grow_of_lt linked inside
  · have old : j < forest.size := by
      rw [size_grow] at older
      omega
    obtain ⟨around, chain, below, links⟩ := linked.chain j old
    refine ⟨around, (chain_grow_of_lt linked old).trans chain, below, fun parent more first => ?_⟩
    have there : parent < forest.size := Nat.lt_trans (below parent (by simp [first])) old
    rw [chain_grow_of_lt linked there]
    exact links parent more first

/-- Replacing the bindings of one scope leaves all links as they are. -/
theorem Linked.set (linked : forest.Linked) (i : Nat) (scope : Scope) :
    Linked { forest with scopes := forest.scopes.setIfInBounds i scope } := by
  have same : ScopeForest.size { forest with scopes := forest.scopes.setIfInBounds i scope } = forest.size :=
    Array.size_setIfInBounds
  exact ⟨linked.size.trans same.symm, fun j older => linked.chain j (same ▸ older)⟩

theorem scope_set_self (inside : i < forest.size) (scope : Scope) :
    ScopeForest.scope { forest with scopes := forest.scopes.setIfInBounds i scope } i = scope := by
  have within : i < forest.scopes.size := inside
  simp [ScopeForest.scope, Array.getD_eq_getD_getElem?, within]

theorem scope_set_of_ne {j : Nat} (apart : i ≠ j) (scope : Scope) :
    ScopeForest.scope { forest with scopes := forest.scopes.setIfInBounds i scope } j = forest.scope j := by
  simp [ScopeForest.scope, Array.getD_eq_getD_getElem?, Array.getElem?_setIfInBounds_ne apart]

theorem linked_root : ({} : ScopeForest).root.Linked := by
  refine ⟨rfl, fun i inside => ⟨[], ?_, by simp, by simp⟩⟩
  obtain rfl : i = 0 := Nat.lt_one_iff.mp inside
  rfl

end ScopeForest

/-- The scopes from this place outward are those of the environment. -/
structure Place.Shows (place : Place) (env : Env) : Prop where
  linked : place.forest.Linked
  inside : place.current < place.forest.size
  scopes : (place.forest.chain place.current).map place.forest.scope = env.scopes

namespace Place.Shows

variable {place : Place} {env : Env}

theorem chain (shows : place.Shows env) : ∃ around, place.forest.chain place.current = place.current :: around ∧
    (∀ j ∈ around, j < place.current) ∧
    (∀ parent more, around = parent :: more → place.forest.chain parent = around) ∧
    place.forest.scope place.current = env.inner ∧ around.map place.forest.scope = env.outer := by
  obtain ⟨around, chain, below, links⟩ := shows.linked.chain _ shows.inside
  have scopes := shows.scopes
  rw [chain, List.map_cons] at scopes
  obtain ⟨inner, outer⟩ := List.cons.inj scopes
  exact ⟨around, chain, below, links, inner, outer⟩

theorem start : Place.start.Shows .empty := ⟨ScopeForest.linked_root, Nat.zero_lt_one, rfl⟩

theorem push (shows : place.Shows env) : (scoping.push place).Shows env.pushScope := by
  refine ⟨shows.linked.grow_chain shows.inside, ?_, ?_⟩
  · exact Nat.lt_of_lt_of_eq (Nat.lt_succ_self _) ScopeForest.size_grow.symm
  · have chain : (place.forest.child place.current).chain place.forest.size =
        place.forest.size :: place.forest.chain place.current := ScopeForest.chain_grow_self shows.linked
    have scopes : (place.forest.child place.current).scope = place.forest.scope :=
      funext fun _ => ScopeForest.scope_grow
    have fresh : place.forest.scope place.forest.size = {} := by
      simp [ScopeForest.scope, ScopeForest.size, Array.getD_eq_getD_getElem?]
    change ((place.forest.child place.current).chain place.forest.size).map
      (place.forest.child place.current).scope = _
    rw [chain, scopes, List.map_cons, shows.scopes, fresh]
    rfl

theorem pop (shows : place.Shows env) : (scoping.pop place).Shows env.popScope := by
  obtain ⟨around, chain, below, links, inner, outer⟩ := shows.chain
  cases around with
  | nil =>
    have last : env.popScope = env := by
      unfold Env.popScope
      rw [← outer]
      rfl
    simp only [scoping, chain, last]
    exact shows
  | cons parent more =>
    simp only [scoping, chain]
    refine ⟨shows.linked, Nat.lt_trans (below parent (by simp)) shows.inside, ?_⟩
    rw [links parent more rfl, outer, Env.popScope, ← outer]
    rfl

theorem declare (shows : place.Shows env) (name : String) (ref : Ref) :
    (∃ failure, scoping.declare place name ref = .error failure ∧ env.declare name ref = .error failure) ∨
    ∃ place' env', scoping.declare place name ref = .ok place' ∧ env.declare name ref = .ok env' ∧
      place'.Shows env' := by
  obtain ⟨around, chain, below, -, inner, outer⟩ := shows.chain
  have here : place.forest.scopes.getD place.current {} = env.inner := inner
  simp only [scoping, ScopeForest.declare, Env.declare, here]
  cases env.inner.declare name ref with
  | error failure => exact .inl ⟨failure, rfl, rfl⟩
  | ok scope =>
    refine .inr ⟨_, _, rfl, rfl, shows.linked.set _ scope, ?_, ?_⟩
    · exact Nat.lt_of_lt_of_eq shows.inside Array.size_setIfInBounds.symm
    · -- Only the scope at the place itself is another.
      change (place.forest.chain place.current).map _ = scope :: env.outer
      rw [chain, List.map_cons, ScopeForest.scope_set_self shows.inside, ← outer]
      congr 1
      refine List.map_congr_left fun j member => ScopeForest.scope_set_of_ne ?_ scope
      exact (Nat.ne_of_lt (below j member)).symm

theorem find? (shows : place.Shows env) (name : String) :
    place.forest.find? place.current name = env.find? name := by
  obtain ⟨around, chain, below, -, -, -⟩ := shows.chain
  have within : ∀ j ∈ place.forest.chain place.current, j < place.forest.size := by
    intro j member
    rw [chain] at member
    rcases List.mem_cons.mp member with rfl | member
    · exact shows.inside
    · exact Nat.lt_trans (below j member) shows.inside
  rw [Env.find?, ← shows.scopes, List.findSome?_map, ScopeForest.find?, ← List.head?_filterMap,
    ← List.head?_filterMap]
  refine congrArg List.head? (List.filterMap_congr fun j member => ?_)
  have there : place.forest.get? j = some (place.forest.scope j) := by
    have bound : j < place.forest.scopes.size := within j member
    simp [ScopeForest.get?, ScopeForest.scope, Array.getD_eq_getD_getElem?, bound]
  rw [there]
  rfl

theorem simulates : Place.scoping.Simulates Env.scoping Place.Shows where
  push := push
  pop := pop
  declare := declare
  lookup := by
    intro place env shows name
    cases here : env.find? name with
    | none => simp only [Place.scoping, Env.scoping, Env.lookup, shows.find? name, here]
    | some ref => simp only [Place.scoping, Env.scoping, Env.lookup, shows.find? name, here]
  depth shows := by
    simp [Place.scoping, Env.scoping, Env.depth, ← shows.scopes]

end Place.Shows

/-! ### Balanced operations -/

namespace Env

open Op

/-- Every block that is left has been entered before, and all that are entered are left. -/
structure Balanced (ops : List Op) : Prop where
  matched : ∀ front, front <+: ops → front.count .pop ≤ front.count .push
  closed : ops.count .pop = ops.count .push

theorem balanced_iff (ops : List Op) : Balanced ops ↔
    (∀ front ∈ ops.inits, front.count .pop ≤ front.count .push) ∧ ops.count .pop = ops.count .push := by
  simp only [List.mem_inits]
  constructor
  · exact fun balanced => ⟨balanced.matched, balanced.closed⟩
  · exact fun ⟨matched, closed⟩ => ⟨matched, closed⟩

instance (ops : List Op) : Decidable (Balanced ops) := decidable_of_iff' _ (balanced_iff ops)

/-- The operation brings a new binding of the name into the innermost scope. -/
def Declares (env : Env) (name : String) : Op → Prop
  | .declare other ref => other = name ∧ (env.declare other ref).isOk
  | _ => False

instance (env : Env) (name : String) : DecidablePred (env.Declares name)
  | .declare .. => inferInstanceAs (Decidable (_ ∧ _))
  | .push | .pop | .lookup _ | .write .. => isFalse id

/-- Some operation brings a new binding of the name into the scope where they begin. -/
def DeclaresHere (env : Env) (ops : List Op) (name : String) : Prop :=
  ∃ front op back, ops = front ++ op :: back ∧ Balanced front ∧ (scoping.after env front).Declares name op

theorem declaresHere_iff (env : Env) (ops : List Op) (name : String) :
    env.DeclaresHere ops name ↔
      ∃ i : Fin ops.length, Balanced (ops.take i) ∧ (scoping.after env (ops.take i)).Declares name ops[i] := by
  constructor
  · rintro ⟨front, op, back, rfl, balanced, declares⟩
    exact ⟨⟨front.length, by simp⟩, by simpa using balanced, by simpa using declares⟩
  · rintro ⟨i, balanced, declares⟩
    refine ⟨ops.take i, ops[i], ops.drop (i + 1), ?_, balanced, declares⟩
    exact (List.take_append_drop i ops).symm.trans (congrArg _ (List.drop_eq_getElem_cons i.isLt))

instance (env : Env) (ops : List Op) (name : String) : Decidable (env.DeclaresHere ops name) :=
  decidable_of_iff' _ (declaresHere_iff env ops name)

/-- `entered` scopes stand above the one that was innermost in `start`. Around that one all is as it
was, and in it the name is bound as it was. -/
structure Covers (start : Env) (name : String) (entered : Nat) (env : Env) : Prop where
  scopes : ∃ above here, env.scopes = above ++ here :: start.outer ∧ above.length = entered ∧
    here.find? name = start.inner.find? name

theorem scopes_popScope {env : Env} (inside : env.outer ≠ []) : env.popScope.scopes = env.outer := by
  obtain ⟨inner, outer⟩ := env
  cases outer with
  | nil => exact absurd rfl inside
  | cons => rfl

namespace Covers

variable {start env later : Env} {name other : String} {entered : Nat} {ref : Ref}

theorem refl (env : Env) (name : String) : env.Covers name 0 env := ⟨[], env.inner, rfl, rfl, rfl⟩

theorem push (covers : start.Covers name entered env) : start.Covers name (entered + 1) env.pushScope := by
  obtain ⟨above, here, scopes, length, same⟩ := covers.scopes
  exact ⟨{} :: above, here, congrArg (List.cons ({} : Scope)) scopes, congrArg (· + 1) length, same⟩

theorem pop (covers : start.Covers name (entered + 1) env) : start.Covers name entered env.popScope := by
  obtain ⟨above, here, scopes, length, same⟩ := covers.scopes
  obtain ⟨top, above, rfl⟩ := List.exists_cons_of_length_eq_add_one length
  have outer : env.outer = above ++ here :: start.outer := (List.cons.inj scopes).2
  have inside : env.outer ≠ [] := by simp [outer]
  exact ⟨above, here, (scopes_popScope inside).trans outer, Nat.succ.inj length, same⟩

/-- A declaration adds to the innermost scope, which is one of those above unless none is. -/
theorem declare (covers : start.Covers name entered env) (declared : env.declare other ref = .ok later)
    (apart : entered = 0 → other ≠ name) : start.Covers name entered later := by
  obtain ⟨above, here, scopes, length, same⟩ := covers.scopes
  rw [declare_eq] at declared
  split at declared
  · cases declared
  cases declared
  cases above with
  | nil =>
    obtain ⟨inner, outer⟩ := List.cons.inj scopes
    refine ⟨[], _, congrArg (List.cons _) outer, length, ?_⟩
    rw [Scope.find?_cons, if_neg (apart length.symm).symm, inner, same]
  | cons top above =>
    exact ⟨_ :: above, here, congrArg (List.cons _) (List.cons.inj scopes).2, length, same⟩

theorem lookup (covers : start.Covers name 0 env) : env.lookup name = start.lookup name := by
  obtain ⟨above, here, scopes, length, same⟩ := covers.scopes
  obtain rfl := List.eq_nil_of_length_eq_zero length
  have found : env.find? name = start.find? name := by
    rw [Env.find?, Env.find?, scopes, List.nil_append, Env.scopes, List.findSome?_cons,
      List.findSome?_cons, same]
  rw [Env.lookup, Env.lookup, found]

end Covers

variable {env : Env} {ops : List Op} {op : Op} {name : String}

theorem after_concat (env : Env) (ops : List Op) (op : Op) :
    scoping.after env (ops ++ [op]) = scoping.move (scoping.after env ops) op :=
  List.foldl_concat ..

theorem DeclaresHere.concat (declares : env.DeclaresHere ops name) (op : Op) :
    env.DeclaresHere (ops ++ [op]) name := by
  obtain ⟨front, first, back, rfl, balanced, declares⟩ := declares
  exact ⟨front, first, back ++ [op], by simp, balanced, declares⟩

/-- As many scopes have been added as blocks are entered and not left. -/
theorem covers_after (matched : ∀ front, front <+: ops → front.count .pop ≤ front.count .push)
    (spared : ¬ env.DeclaresHere ops name) :
    env.Covers name (ops.count .push - ops.count .pop) (scoping.after env ops) := by
  induction ops using List.reverseRecOn with
  | nil => exact .refl env name
  | append_singleton ops op ih =>
    have earlier : ∀ front, front <+: ops → front.count .pop ≤ front.count .push :=
      fun front start => matched front (start.trans (List.prefix_append ..))
    have before := earlier ops List.prefix_rfl
    have now := matched _ List.prefix_rfl
    have covers := ih earlier fun declares => spared (declares.concat op)
    rw [after_concat]
    cases op with
    | push =>
      have counts : (ops ++ [push]).count .push - (ops ++ [push]).count .pop =
          ops.count .push - ops.count .pop + 1 := by
        simp; omega
      rw [counts]
      exact covers.push
    | pop =>
      have counts : ops.count .push - ops.count .pop =
          (ops ++ [pop]).count .push - (ops ++ [pop]).count .pop + 1 := by
        simp at now ⊢; omega
      rw [counts] at covers
      exact covers.pop
    | lookup other => simpa [Scoping.move] using covers
    | write other value => simpa [Scoping.move] using covers
    | declare other ref =>
      have counts : (ops ++ [Op.declare other ref]).count .push - (ops ++ [Op.declare other ref]).count .pop =
          ops.count .push - ops.count .pop := by simp
      rw [counts]
      cases declared : scoping.declare (scoping.after env ops) other ref with
      | error => simpa only [Scoping.move, declared] using covers
      | ok later =>
        simp only [Scoping.move, declared]
        refine covers.declare declared fun level same => spared ?_
        have fresh : ((scoping.after env ops).declare other ref).isOk := congrArg Except.isOk declared
        exact ⟨ops, .declare other ref, [], rfl, ⟨earlier, by omega⟩, same, fresh⟩

theorem lookup_after_of_balanced (balanced : Balanced ops) (spared : ¬ env.DeclaresHere ops name) :
    (scoping.after env ops).lookup name = env.lookup name := by
  have covers := covers_after balanced.matched spared
  rw [balanced.closed, Nat.sub_self] at covers
  exact covers.lookup

theorem kind_of_lookup {failure : Failure} (failed : env.lookup name = .error failure) :
    failure.kind = .unresolvedName := by
  rw [Env.lookup] at failed
  split at failed
  · cases failed
  · cases failed
    rfl

/-- From the environment without names, any operations have the answers that they have on a stack
of finite maps, and so they have on scopes that are linked. There is always a scope, and a name that
no scope has is unresolved. When all blocks that are entered are left, each name denotes what it did,
unless it was declared at the level where they begin. -/
theorem stack_of_maps :
    (∀ heap ops, scoping.run .empty heap ops = MapStack.scoping.run .empty heap ops) ∧
    (∀ heap ops, Place.scoping.run .start heap ops = MapStack.scoping.run .empty heap ops) ∧
    (∀ ops, 0 < (scoping.after .empty ops).depth) ∧
    (∀ ops name failure, (scoping.after .empty ops).lookup name = .error failure →
      failure.kind = .unresolvedName) ∧
    ∀ env ops name, Balanced ops → ¬ env.DeclaresHere ops name →
      (scoping.after env ops).lookup name = env.lookup name := by
  have maps : ∀ heap ops, scoping.run .empty heap ops = MapStack.scoping.run .empty heap ops :=
    simulates_maps.run rfl
  refine ⟨maps, fun heap ops => ?_, fun ops => Nat.succ_pos _, fun ops name failure => kind_of_lookup,
    fun env ops name => lookup_after_of_balanced⟩
  exact (Place.Shows.simulates.run .start heap ops).trans (maps heap ops)

def Op.shadowing : List Op :=
  [.push, .declare "x" ⟨1⟩, .declare "x" ⟨2⟩, .declare "y" ⟨3⟩, .pop, .declare "x" ⟨4⟩]

/-- A block has its own bindings of two names. Where it stands one of them is bound already, and it
cannot be declared again; the other is not known there. -/
theorem stack_of_maps_shadowing :
    let env : Env := { inner := ⟨[("x", ⟨0⟩)]⟩ }
    Balanced Op.shadowing ∧
    ¬ env.DeclaresHere Op.shadowing "x" ∧ (scoping.after env Op.shadowing).lookup "x" = .ok ⟨0⟩ ∧
    ¬ env.DeclaresHere Op.shadowing "y" ∧
      (scoping.after env Op.shadowing).lookup "y" = .error (.undefinedVariable "y") ∧
    (scoping.after .empty Op.shadowing).lookup "y" = .error (.undefinedVariable "y") ∧
      (Failure.undefinedVariable "y").kind = .unresolvedName := by
  intro env
  obtain ⟨-, -, -, unresolved, resolved⟩ := stack_of_maps
  have balanced : Balanced Op.shadowing := by decide
  have x : ¬ env.DeclaresHere Op.shadowing "x" := by decide
  have y : ¬ env.DeclaresHere Op.shadowing "y" := by decide
  have unknown : (scoping.after .empty Op.shadowing).lookup "y" = .error (.undefinedVariable "y") := rfl
  exact ⟨balanced, x, (resolved env _ _ balanced x).trans rfl, y, (resolved env _ _ balanced y).trans rfl,
    unknown, unresolved _ _ _ unknown⟩

end Env

end TreeLang
