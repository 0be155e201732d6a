import TreeLang.Proofs.Moments
import TreeLang.Proofs.Parts
import TreeLang.Proofs.Placement
import Mathlib.Data.List.Nodup
import Mathlib.Logic.Relation

/-! Types are settled for good. Whatever interpreters do with the trees they share, and in whatever
order, a declaration that has a type keeps it, and the type agrees with what is declared. Once
there is a type the lengths are not evaluated again. -/
namespace TreeLang

/-! ### Tables -/

namespace Resolutions

variable {table mid later : Resolutions} {slot other : Slot} {ty : Ty}

/-- Both tables have the same slots, and a settled type stays. -/
structure Kept (table later : Resolutions) : Prop where
  size : later.types.size = table.types.size
  settled : ∀ {slot ty}, table.get? slot = some ty → later.get? slot = some ty

theorem Kept.refl (table : Resolutions) : table.Kept table := ⟨rfl, id⟩

theorem Kept.trans (first : table.Kept mid) (second : mid.Kept later) : table.Kept later :=
  ⟨second.size.trans first.size, fun found => second.settled (first.settled found)⟩

theorem settle_of_some (settled : table.get? slot = some ty) (found : Ty) :
    table.settle slot found = table := by
  simp only [settle, settled]

theorem settle_of_none (unsettled : table.get? slot = none) :
    table.settle slot ty = { types := table.types.setIfInBounds slot.index (some ty) } := by
  simp only [settle, unsettled]

theorem get?_settle_self (inside : slot.index < table.types.size) :
    (table.settle slot ty).get? slot = some ((table.get? slot).getD ty) := by
  cases settled : table.get? slot with
  | some known => rw [settle_of_some settled, settled, Option.getD_some]
  | none =>
    rw [settle_of_none settled]
    simp [get?, Array.getD_eq_getD_getElem?, inside]

theorem get?_settle_of_ne (apart : other ≠ slot) :
    (table.settle slot ty).get? other = table.get? other := by
  cases settled : table.get? slot with
  | some known => rw [settle_of_some settled]
  | none =>
    have differ : slot.index ≠ other.index := fun same => apart (congrArg Slot.mk same.symm)
    rw [settle_of_none settled]
    simp [get?, Array.getD_eq_getD_getElem?, differ]

theorem settle_of_not_lt (outside : ¬ slot.index < table.types.size) :
    table.settle slot ty = table := by
  have unsettled : table.get? slot = none := by
    simp [get?, Array.getD_eq_getD_getElem?, Nat.not_lt.mp outside]
  rw [settle_of_none unsettled, Array.setIfInBounds, dif_neg outside]

/-- Settling a type changes a slot without a type or none. -/
theorem get?_settle_cases (table : Resolutions) (slot other : Slot) (ty : Ty) :
    (table.settle slot ty).get? other = table.get? other ∨
      other = slot ∧ table.get? slot = none ∧ (table.settle slot ty).get? other = some ty := by
  by_cases same : other = slot
  · by_cases inside : slot.index < table.types.size
    · subst same
      rw [get?_settle_self inside]
      cases settled : table.get? other with
      | some known => exact .inl rfl
      | none => exact .inr ⟨rfl, rfl, rfl⟩
    · exact .inl (by rw [settle_of_not_lt inside])
  · exact .inl (get?_settle_of_ne same)

theorem kept_settle (table : Resolutions) (slot : Slot) (ty : Ty) :
    table.Kept (table.settle slot ty) := by
  refine ⟨?_, fun {other found} settled => ?_⟩
  · unfold settle
    split <;> simp
  · rcases table.get?_settle_cases slot other ty with same | ⟨rfl, unsettled, -⟩
    · exact same.trans settled
    · rw [unsettled] at settled
      contradiction

theorem lt_size_of_get? (settled : table.get? slot = some ty) : slot.index < table.types.size := by
  by_contra outside
  simp [get?, Array.getD_eq_getD_getElem?, Nat.not_lt.mp outside] at settled

theorem Extends.get?_of_lt (grown : later.Extends table) (inside : slot.index < table.types.size) :
    later.get? slot = table.get? slot := by
  obtain ⟨more, same⟩ := grown
  simp [get?, same, Array.getD_eq_getD_getElem?, Array.getElem?_append_left inside]

/-- The types of these declarations have the declared tag and no empty array level. -/
def Fits (table : Resolutions) (declarations : List (Declaration Slot)) : Prop :=
  ∀ d ∈ declarations, ∀ ty, table.get? d.note = some ty → ty.tag = d.ty.tag ∧ ty.Sized

end Resolutions

/-! ### What evaluation does to the table -/

/-- A property of the table that settling the type of such a declaration keeps. -/
def Law.table (holds : Resolutions → Prop) (declared : Declaration Slot → Prop)
    (settle : ∀ {table ty declaration}, holds table → declared declaration →
      ty.tag = declaration.ty.tag → ty.Sized → holds (table.settle declaration.note ty)) : Law where
  inv s := holds s.resolved
  rel s t := t.depth = s.depth ∧ s.resolved.Kept t.resolved
  val _ _ := True
  arg _ _ := True
  declared := declared
  refl s := ⟨rfl, .refl s.resolved⟩
  trans first second := ⟨second.1.trans first.1, first.2.trans second.2⟩
  val_later _ _ _ := trivial
  arg_later _ _ _ := trivial
  arg_of_val _ _ := trivial
  val_int _ _ := trivial
  val_bool _ _ := trivial
  stack _ inv := ⟨inv, rfl, .refl _⟩
  console _ inv := ⟨inv, rfl, .refl _⟩
  settle inv declared tagged sized :=
    ⟨settle inv declared tagged sized, rfl, Resolutions.kept_settle _ _ _⟩
  lookup _ _ := trivial
  element _ _ _ := trivial
  assign inv _ _ _ := ⟨inv, rfl, .refl _⟩
  alloc inv _ := ⟨inv, rfl, .refl _⟩
  bind inv _ _ := ⟨inv, rfl, .refl _⟩
  openBlock inv := inv
  closeBlock _ inv related := ⟨inv, related⟩
  enterCall inv := inv
  leaveCall _ inv related := ⟨inv, Nat.sub_eq_of_eq_add related.1, related.2⟩

/-- The types settled in an earlier table are kept at every moment. -/
def Watch.settled (before : Resolutions) : Watch where
  law _ :=
    Law.table before.Kept (fun _ => True) fun kept _ _ _ =>
      kept.trans (Resolutions.kept_settle _ _ _)
  declared _ _ := trivial
  given _ _ _ := trivial
  level related := related.1
  enter kept := kept

theorem eval_kept (context : Context) (fuel : Nat) (node : Node Slot) (s : State) :
    (eval context fuel node).EndsIn s fun t => s.resolved.Kept t.resolved := by
  have sound : ((Watch.settled s.resolved).law []).Sound (eval context fuel) :=
    Law.sound_of_forall (fun _ => trivial) context fuel
  have every : node.Every ((Watch.settled s.resolved).law []).declared :=
    node.every_of_forall fun _ => trivial
  exact Exec.Ends.mono (sound.kept every (.refl _)) (fun _ _ kept => kept.1) fun _ kept => kept.1

/-! ### Evaluating a declaration -/

namespace Eval

open Exec

variable {below other : Evaluator} {node : Node Slot} {declaration : Declaration Slot} {slot : Slot}
  {s t : State}

/-- The evaluator ends there, with a result or a failure. -/
def Reaches (below : Evaluator) (node : Node Slot) (s t : State) : Prop :=
  (∃ flow, below node s = .ok flow t) ∨ ∃ failure, below node s = .error failure t

theorem value_reaches (below : Evaluator) (node : Node Slot) (s : State) :
    (value below node).EndsIn s fun t => ∃ u, Reaches below node s u ∧ t.resolved = u.resolved := by
  have reached :
      (below node).EndsIn s fun t => ∃ u, Reaches below node s u ∧ t.resolved = u.resolved := by
    unfold EndsIn Ends
    cases outcome : below node s with
    | ok flow t => exact ⟨t, .inl ⟨flow, outcome⟩, rfl⟩
    | error failure t => exact ⟨t, .inr ⟨failure, outcome⟩, rfl⟩
    | outOfFuel => trivial
  refine ends_height_bind (Ends.bind reached fun flow t there => ?_)
  cases flow with
  | returned result => exact ends_fail there
  | completed =>
    refine ends_height_bind ?_
    split
    · unfold Ends pop
      cases t.stack.pop with
      | ok popped => exact there
      | error failure => exact there
    · exact ends_fail there

theorem int_reaches (below : Evaluator) (node : Node Slot) (s : State) :
    (int below node).EndsIn s fun t => ∃ u, Reaches below node s u ∧ t.resolved = u.resolved :=
  Ends.bind (value_reaches below node s) fun _ _ there => ends_reading (fun _ _ => there) there

theorem int_apply_congr (same : other node s = below node s) :
    int other node s = int below node s := by
  have valued : value other node s = value below node s := by
    change (Exec.bind (other node) _) s = (Exec.bind (below node) _) s
    simp only [Exec.bind, same]
  change (Exec.bind (value other node) _) s = (Exec.bind (value below node) _) s
  simp only [Exec.bind, valued]

theorem int_of_error {failure : Failure} (failed : below node s = .error failure t) :
    int below node s = .error failure t := by
  have valued : value below node s = .error failure t := by
    rw [value, height_bind, bind_of_error failed]
  rw [int, bind_of_error valued]

/-- A failure of the node in this state, whichever it is, would be the outcome of the rule. -/
def HandsOn {α : Type} (rule : Evaluator → Outcome α) (below : Evaluator) (node : Node Slot)
    (t : State) : Prop :=
  ∀ failure, ∀ other : Evaluator, (∀ n u, n ≠ node ∨ u ≠ t → other n u = below n u) →
    other node t = .error failure t → ∃ u, rule other = .error failure u

/-- One of the nodes is evaluated in the course of the rule, from a state where the slot has no
type to one where it has. -/
def SettledBy {α : Type} (rule : Evaluator → Outcome α) (below : Evaluator) (slot : Slot)
    (nodes : List (Node Slot)) : Prop :=
  ∃ node ∈ nodes, ∃ u w, HandsOn rule below node u ∧ Reaches below node u w ∧
    u.resolved.get? slot = none ∧ w.resolved.get? slot ≠ none

/-- A slot that gets its type while a declared type is worked out gets it from the evaluation of a
length. -/
theorem resolve_settles : ∀ (spec : TypeSpec Slot) {s : State}, s.resolved.get? slot = none →
    (resolve below spec).EndsIn s fun t => t.resolved.get? slot ≠ none →
      SettledBy (fun below => resolve below spec s) below slot spec.lengths
  | .int, _, unsettled => fun settled => absurd unsettled settled
  | .bool, _, unsettled => fun settled => absurd unsettled settled
  | .void, _, unsettled => fun settled => absurd unsettled settled
  | .array element size, s, unsettled => by
    have fails (failure : Failure) (other : Evaluator) (failed : other size s = .error failure s) :
        resolve other (.array element size) s = .error failure s := by
      rw [resolve, bind_of_error (int_of_error failed)]
    have first : (int below size).EndsIn s fun t => t.resolved.get? slot ≠ none →
        SettledBy (fun below => resolve below (.array element size) s) below slot
          (size :: element.lengths) := by
      have here (t : State) (reached : ∃ u, Reaches below size s u ∧ t.resolved = u.resolved)
          (settled : t.resolved.get? slot ≠ none) :
          SettledBy (fun below => resolve below (.array element size) s) below slot
            (size :: element.lengths) := by
        obtain ⟨w, reaches, same⟩ := reached
        rw [same] at settled
        exact ⟨size, by simp, s, w,
          fun failure other _ failed => ⟨s, fails failure other failed⟩, reaches,
          unsettled, settled⟩
      exact Ends.mono (int_reaches below size s) (fun _ t reached => here t reached) here
    rw [resolve]
    refine Ends.bind (Ends.recall first) ?_
    rintro n t ⟨hit, counted⟩
    by_cases still : t.resolved.get? slot = none
    · by_cases positive : 0 < n
      · rw [if_pos positive]
        have later := resolve_settles element still
        have lifted
          (found : SettledBy (fun below => resolve below element t) below slot element.lengths) :
            SettledBy (fun below => resolve below (.array element size) s) below slot
              (size :: element.lengths) := by
          obtain ⟨node, member, u, w, hands, reaches, before, after⟩ := found
          refine ⟨node, List.mem_cons_of_mem _ member, u, w, fun failure other same failed => ?_,
            reaches, before, after⟩
          -- The outer length may be the same node in the same state.
          by_cases twin : size = node ∧ s = u
          · obtain ⟨rfl, rfl⟩ := twin
            exact ⟨s, fails failure other failed⟩
          · have agree := int_apply_congr (same size s (not_and_or.mp twin))
            obtain ⟨x, ended⟩ := hands failure other same failed
            refine ⟨x, ?_⟩
            simp only [resolve]
            rw [bind_of_ok (agree.trans counted), if_pos positive, bind_of_error ended]
        refine Ends.bind (Ends.mono later (fun _ _ found settled => lifted (found settled))
          fun _ found settled => lifted (found settled)) fun ty u found => ends_pure found
      · rw [if_neg positive]
        exact ends_fail fun settled => absurd still settled
    · exact Ends.mono (ends_anyhow _ t) (fun _ _ _ _ => hit still) fun _ _ _ => hit still
termination_by structural spec => spec

theorem typeOf_of_some {ty : Ty} (settled : s.resolved.get? declaration.note = some ty) :
    typeOf below declaration s = .ok ty s := by
  have read : settledType? declaration.note s = .ok (some ty) s := by
    simp only [settledType?, reading, settled]
  rw [typeOf, bind_of_ok read]
  rfl

theorem typeOf_of_none (unsettled : s.resolved.get? declaration.note = none) :
    typeOf below declaration s = (resolve below declaration.ty >>= settle declaration.note) s := by
  have read : settledType? declaration.note s = .ok none s := by
    simp only [settledType?, reading, unsettled]
  rw [typeOf, bind_of_ok read]

/-- A type that is worked out is the one that is found afterwards, also if the declaration has got
its type in the meantime. -/
theorem get?_of_typeOf {ty : Ty} (typed : typeOf below declaration s = .ok ty t)
    (inside : declaration.note.index < t.resolved.types.size) :
    t.resolved.get? declaration.note = some ty := by
  cases settled : s.resolved.get? declaration.note with
  | some known =>
    rw [typeOf_of_some settled] at typed
    cases typed
    exact settled
  | none =>
    rw [typeOf_of_none settled] at typed
    obtain ⟨found, u, resolved, settling⟩ := ok_of_bind typed
    cases settling
    have kept := Resolutions.kept_settle u.resolved declaration.note found
    exact Resolutions.get?_settle_self (kept.size ▸ inside)

end Eval

/-- Cells have been made and names bound; nothing was printed or read, no type settled and no old
cell written. -/
structure State.OnlyAdds (s t : State) : Prop where
  console : t.console = s.console
  resolved : t.resolved = s.resolved
  cells : ∀ ref, ref.index < s.heap.size → t.heap.get ref = s.heap.get ref

namespace Eval

open Exec

variable {below : Evaluator} {declaration : Declaration Slot} {s t : State}

/-- Once a declaration has a type, it is evaluated without asking for anything else. -/
theorem declare_of_some {ty : Ty} (settled : s.resolved.get? declaration.note = some ty) :
    declare below declaration s = (newCell ty >>= bindName declaration.name) s := by
  rw [declare, bind_of_ok (typeOf_of_some settled)]

theorem declare_of_resolve_error {failure : Failure}
    (unsettled : s.resolved.get? declaration.note = none)
    (failed : resolve below declaration.ty s = .error failure t) :
    declare below declaration s = .error failure t := by
  have typed : typeOf below declaration s = .error failure t := by
    rw [typeOf_of_none unsettled, bind_of_error failed]
  rw [declare, bind_of_error typed]

/-- A declaration whose type cannot be worked out has none, unless a length has given it one. -/
theorem unsettled_of_resolve_error {failure : Failure}
    (unsettled : s.resolved.get? declaration.note = none)
    (failed : resolve below declaration.ty s = .error failure t) :
    t.resolved.get? declaration.note = none ∨
      SettledBy (fun below => declare below declaration s) below declaration.note
        declaration.ty.lengths := by
  by_cases still : t.resolved.get? declaration.note = none
  · exact .inl still
  · obtain ⟨size, member, u, w, hands, settles⟩ :=
      (resolve_settles declaration.ty unsettled).bad_of_eq failed still
    refine .inr ⟨size, member, u, w, fun problem other same fails => ?_, settles⟩
    obtain ⟨x, ended⟩ := hands problem other same fails
    exact ⟨x, declare_of_resolve_error unsettled ended⟩

theorem newCell_bindName_onlyAdds (ty : Ty) (name : String) (s : State) : ∃ t, s.OnlyAdds t ∧
    ((newCell ty >>= bindName name) s = .ok () t ∨
      ∃ failure, (newCell ty >>= bindName name) s = .error failure t) := by
  cases fault : ty.fault? with
  | some failure =>
    have refused : newCell ty s = .error failure s := by simp only [newCell, fault]
    exact ⟨s, ⟨rfl, rfl, fun _ _ => rfl⟩, .inr ⟨failure, bind_of_error refused⟩⟩
  | none =>
    have made : newCell ty s = .ok (s.heap.alloc ty).1 { s with heap := (s.heap.alloc ty).2 } := by
      simp only [newCell, fault]
    have grown := (Heap.alloc_grown ty s.heap fault).1
    rw [bind_of_ok made]
    unfold bindName
    cases s.env.declare name (s.heap.alloc ty).1 with
    | ok env => exact ⟨{ s with heap := (s.heap.alloc ty).2, env }, ⟨rfl, rfl, grown.old⟩, .inl rfl⟩
    | error failure =>
      exact ⟨{ s with heap := (s.heap.alloc ty).2 }, ⟨rfl, rfl, grown.old⟩, .inr ⟨failure, rfl⟩⟩

/-- With a type at hand nothing is asked for: the outcome is the same for every evaluator. -/
theorem declare_onlyAdds {ty : Ty} (settled : s.resolved.get? declaration.note = some ty) :
    ∃ t, s.OnlyAdds t ∧ ((∀ below, declare below declaration s = .ok () t) ∨
      ∃ failure, ∀ below, declare below declaration s = .error failure t) := by
  obtain ⟨t, adds, made | ⟨failure, failed⟩⟩ := newCell_bindName_onlyAdds ty declaration.name s
  · exact ⟨t, adds, .inl fun below => (declare_of_some settled).trans made⟩
  · exact ⟨t, adds, .inr ⟨failure, fun below => (declare_of_some settled).trans failed⟩⟩

theorem typeOf_kept (context : Context) (fuel : Nat) (declaration : Declaration Slot) (s : State) :
    (typeOf (eval context fuel) declaration).EndsIn s fun t => s.resolved.Kept t.resolved := by
  have sound : ((Watch.settled s.resolved).law []).Sound (eval context fuel) :=
    Law.sound_of_forall (fun _ => trivial) context fuel
  have yields := Law.typeOf_yields sound (declaration.every_of_forall fun _ => trivial)
    (Resolutions.Kept.refl s.resolved)
  exact Ends.mono yields (fun _ _ ended => ended.1.inv) fun _ level => level.inv

end Eval

/-! ### Trees that interpreters share -/

/-- All declarations of some trees, and the types that have been settled for them. -/
structure Forest where
  declarations : List (Declaration Slot) := []
  resolved : Resolutions := {}

namespace Forest

variable {forest later : Forest}

def plantNode (forest : Forest) (node : Node (Option Ty)) : Forest :=
  let (placed, resolved) := forest.resolved.placeNode node
  { declarations := forest.declarations ++ placed.declarations, resolved }

def plantProgram (forest : Forest) (program : Program (Option Ty)) : Forest :=
  let (placed, resolved) := forest.resolved.placeProgram program
  { declarations := forest.declarations ++ placed.declarations, resolved }

/-- A tree is added, as it was read or as a copy that has the types of the original, or any
interpreter, whatever its cells, its input and its names are, does something with the trees. -/
inductive Step (forest : Forest) : Forest → Prop where
  | node (node : Node Unit) : Step forest (forest.plantNode node.unsettled)
  | program (program : Program Unit) : Step forest (forest.plantProgram program.unsettled)
  | copyNode {node : Node Slot} : node.declarations ⊆ forest.declarations →
      Step forest (forest.plantNode (forest.resolved.snapshot node))
  | copyProgram {program : Program Slot} : program.declarations ⊆ forest.declarations →
      Step forest (forest.plantProgram (program.map forest.resolved.get?))
  | operation {interpreter later : Interpreter} : interpreter.state.resolved = forest.resolved →
      interpreter.context.registry.Every (· ∈ forest.declarations) →
      interpreter.StepOn (· ∈ forest.declarations) later →
      Step forest { forest with resolved := later.state.resolved }

/-- Each declaration has a slot of its own, and what the slot holds fits the declaration. -/
structure Sound (forest : Forest) : Prop where
  distinct : (forest.declarations.map (·.note)).Nodup
  inside : ∀ d ∈ forest.declarations, d.note.index < forest.resolved.types.size
  fits : forest.resolved.Fits forest.declarations

/-- There may be more trees, and types that were settled are still there. -/
structure Keeps (forest later : Forest) : Prop where
  declarations : forest.declarations ⊆ later.declarations
  settled : ∀ {slot ty}, forest.resolved.get? slot = some ty → later.resolved.get? slot = some ty

theorem Sound.plant {given : List (Declaration (Option Ty))} {placed : List (Declaration Slot)}
    {resolved : Resolutions} (sound : forest.Sound)
    (lays : forest.resolved.Lays given placed resolved)
    (back : placed.map (Declaration.map resolved.get?) = given)
    (carried : ∀ d ∈ given, ∀ ty, d.note = some ty → ty.tag = d.ty.tag ∧ ty.Sized) :
    Sound { declarations := forest.declarations ++ placed, resolved } := by
  have size : forest.resolved.types.size ≤ resolved.types.size := by simp [lays.types]
  refine ⟨?_, fun d member => ?_, fun d member ty settled => ?_⟩
  · rw [List.map_append, List.nodup_append]
    refine ⟨sound.distinct, lays.distinct, ?_⟩
    intro one old two new same
    obtain ⟨d, member, rfl⟩ := List.mem_map.mp old
    obtain ⟨e, added, rfl⟩ := List.mem_map.mp new
    have below := sound.inside d member
    have above := (lays.bounds added).1
    rw [← same] at above
    omega
  · rcases List.mem_append.mp member with old | new
    · exact Nat.lt_of_lt_of_le (sound.inside d old) size
    · exact (lays.bounds new).2
  · rcases List.mem_append.mp member with old | new
    · rw [lays.extends.get?_of_lt (sound.inside d old)] at settled
      exact sound.fits d old ty settled
    · have listed : d.map resolved.get? ∈ given := back ▸ List.mem_map_of_mem new
      have fits := carried _ listed ty (by rw [Declaration.note_map]; exact settled)
      rwa [Declaration.ty_map, TypeSpec.tag_map] at fits

theorem keeps_plant {given : List (Declaration (Option Ty))} {placed : List (Declaration Slot)}
    {resolved : Resolutions} (lays : forest.resolved.Lays given placed resolved) :
    forest.Keeps { declarations := forest.declarations ++ placed, resolved } :=
  ⟨by simp,
    fun settled => (lays.extends.get?_of_lt (Resolutions.lt_size_of_get? settled)).trans settled⟩

/-- What a tree that is planted carries fits, if it fits where the tree comes from. -/
theorem carried_map {ε : Type} {f : ε → Option Ty} {declarations : List (Declaration ε)}
    (known : ∀ d ∈ declarations, ∀ ty, f d.note = some ty → ty.tag = d.ty.tag ∧ ty.Sized) :
    ∀ d ∈ declarations.map (Declaration.map f), ∀ ty, d.note = some ty → ty.tag = d.ty.tag ∧
      ty.Sized := by
  intro d member ty carried
  obtain ⟨origin, listed, rfl⟩ := List.mem_map.mp member
  rw [Declaration.note_map] at carried
  rw [Declaration.ty_map, TypeSpec.tag_map]
  exact known origin listed ty carried

theorem Sound.plantNode {ε : Type} {f : ε → Option Ty} {node : Node ε} (sound : forest.Sound)
    (known : ∀ d ∈ node.declarations, ∀ ty, f d.note = some ty → ty.tag = d.ty.tag ∧ ty.Sized) :
    (forest.plantNode (node.map f)).Sound ∧ forest.Keeps (forest.plantNode (node.map f)) := by
  have lays := (node.map f).lays forest.resolved
  refine ⟨sound.plant lays ((node.map f).declarations_place forest.resolved) ?_, keeps_plant lays⟩
  rw [Node.declarations_map]
  exact carried_map known

theorem Sound.plantProgram {ε : Type} {f : ε → Option Ty} {program : Program ε}
    (sound : forest.Sound)
    (known : ∀ d ∈ program.declarations, ∀ ty, f d.note = some ty → ty.tag = d.ty.tag ∧ ty.Sized) :
    (forest.plantProgram (program.map f)).Sound ∧
      forest.Keeps (forest.plantProgram (program.map f)) := by
  have lays := (program.map f).lays forest.resolved
  refine ⟨sound.plant lays ((program.map f).declarations_place forest.resolved) ?_,
    keeps_plant lays⟩
  rw [Program.declarations_map]
  exact carried_map known

/-- Settling keeps the types of a sound forest fitting: only one declaration has the slot. -/
theorem Sound.fits_settle {resolved : Resolutions} {declaration : Declaration Slot} {ty : Ty}
    (sound : forest.Sound)
    (fits : resolved.Fits forest.declarations) (member : declaration ∈ forest.declarations)
    (tagged : ty.tag = declaration.ty.tag) (sized : ty.Sized) :
    (resolved.settle declaration.note ty).Fits forest.declarations := by
  intro d listed found settled
  rcases resolved.get?_settle_cases declaration.note d.note ty with same | ⟨shared, -, new⟩
  · exact fits d listed found (same ▸ settled)
  · cases List.inj_on_of_nodup_map sound.distinct listed member shared
    cases new.symm.trans settled
    exact ⟨tagged, sized⟩

def law (forest : Forest) (sound : forest.Sound) : Law :=
  Law.table (·.Fits forest.declarations) (· ∈ forest.declarations) sound.fits_settle

theorem Sound.step (sound : forest.Sound) (step : forest.Step later) :
    later.Sound ∧ forest.Keeps later := by
  cases step with
  | node node => exact sound.plantNode nofun
  | program program => exact sound.plantProgram nofun
  | copyNode own => exact sound.plantNode fun d member => sound.fits d (own member)
  | copyProgram own => exact sound.plantProgram fun d member => sound.fits d (own member)
  | @operation interpreter after same functions operation =>
    have fits : interpreter.state.resolved.Fits forest.declarations := same ▸ sound.fits
    obtain ⟨now, -, kept⟩ :=
      (forest.law sound).stepOn_kept (fun _ _ => trivial) functions fits operation
    rw [same] at kept
    refine ⟨⟨sound.distinct, fun d member => ?_, now⟩, fun _ member => member, kept.settled⟩
    rw [kept.size]
    exact sound.inside d member

theorem Sound.eval_fits (sound : forest.Sound) {context : Context} {node : Node Slot} {s : State}
    (functions : context.registry.Every (· ∈ forest.declarations))
    (every : node.Every (· ∈ forest.declarations))
    (fits : s.resolved.Fits forest.declarations) (fuel : Nat) :
    (eval context fuel node).EndsIn s fun t => t.resolved.Fits forest.declarations := by
  have keeps : (forest.law sound).Sound (eval context fuel) := Law.eval_sound functions fuel
  exact Exec.Ends.mono (keeps.kept every fits) (fun _ _ kept => kept.1) fun _ kept => kept.1

theorem Keeps.refl (forest : Forest) : forest.Keeps forest := ⟨fun _ member => member, id⟩

theorem Keeps.trans {mid : Forest} (first : forest.Keeps mid) (second : mid.Keeps later) :
    forest.Keeps later :=
  ⟨fun _ member => second.declarations (first.declarations member),
    fun settled => second.settled (first.settled settled)⟩

theorem Sound.steps (sound : forest.Sound) (history : Relation.ReflTransGen Step forest later) :
    later.Sound ∧ forest.Keeps later := by
  induction history with
  | refl => exact ⟨sound, .refl forest⟩
  | tail _ step ih =>
    obtain ⟨now, kept⟩ := ih.1.step step
    exact ⟨now, ih.2.trans kept⟩

theorem sound_empty : Sound {} := ⟨by simp, by simp, fun _ member => nomatch member⟩

/-- In every forest that has come about, each declaration has a slot of its own, and a type that is
settled in it stays the same in all that may follow and at every moment on the way. It has the
declared tag and no empty array level. From then on the declaration is evaluated without its
lengths. Before, a type that is worked out is stored, and if a length fails there is no type
unless the evaluation of a length has settled one. -/
theorem settled_once (history : Relation.ReflTransGen Step {} forest) :
    (forest.declarations.map (·.note)).Nodup ∧ forest.resolved.Fits forest.declarations ∧
    (∀ later, Relation.ReflTransGen Step forest later → forest.Keeps later) ∧
    (∀ (interpreter : Interpreter) moment, interpreter.Passes moment →
      interpreter.state.resolved.Kept moment.state.resolved) ∧
    (∀ context fuel node s, (eval context fuel node).EndsIn s fun t => s.resolved.Kept t.resolved) ∧
    (∀ context fuel node (s : State), context.registry.Every (· ∈ forest.declarations) →
      node.Every (· ∈ forest.declarations) → s.resolved.Fits forest.declarations →
      (eval context fuel node).EndsIn s fun t => t.resolved.Fits forest.declarations) ∧
    ∀ declaration ∈ forest.declarations, ∀ s : State, forest.resolved.Kept s.resolved →
      (∀ ty, s.resolved.get? declaration.note = some ty → ∃ t, s.OnlyAdds t ∧
        ((∀ below, Eval.declare below declaration s = .ok () t) ∨
          ∃ failure, ∀ below, Eval.declare below declaration s = .error failure t)) ∧
      ∀ context fuel,
        (∀ ty t, Eval.typeOf (eval context fuel) declaration s = .ok ty t →
          t.resolved.get? declaration.note = some ty) ∧
        ∀ failure t, s.resolved.get? declaration.note = none →
          Eval.resolve (eval context fuel) declaration.ty s = .error failure t →
          Eval.declare (eval context fuel) declaration s = .error failure t ∧
          (t.resolved.get? declaration.note = none ∨
            Eval.SettledBy (fun below => Eval.declare below declaration s) (eval context fuel)
              declaration.note declaration.ty.lengths) := by
  have sound := (sound_empty.steps history).1
  refine ⟨sound.distinct, sound.fits, fun later future => (sound.steps future).2, ?_, eval_kept,
    fun _ fuel _ _ functions every fits => sound.eval_fits functions every fits fuel, ?_⟩
  · intro interpreter moment passes
    exact (Watch.settled interpreter.state.resolved).holds_of_interpreter_passes (.refl _) passes
  · intro declaration member s kept
    refine ⟨fun ty settled => Eval.declare_onlyAdds settled,
      fun context fuel => ⟨fun ty t typed => ?_, ?_⟩⟩
    · have after := (Eval.typeOf_kept context fuel declaration s).ok_of_eq typed
      refine Eval.get?_of_typeOf typed ?_
      rw [after.size, kept.size]
      exact sound.inside declaration member
    · intro failure t unsettled failed
      exact ⟨Eval.declare_of_resolve_error unsettled failed,
        Eval.unsettled_of_resolve_error unsettled failed⟩

/-- A function that declares an array, and the length of the array is found by calling the function
again with a smaller argument. -/
def reentrant : Program Unit where
  functions := [
    ⟨"f", [⟨"n", .int, ()⟩],
      [.declare ⟨"a", .array .int (.call "length" [.var "n"]), ()⟩, .ret (some (.int 5))], .int⟩,
    ⟨"length", [⟨"n", .int, ()⟩],
      [.branch (.var "n") (.ret (some (.call "f" [.arith .sub (.var "n") (.int 1)]))) none,
        .ret (some (.int 2))], .int⟩,
    ⟨"main", [], [.call "f" [.int 1]], .void⟩]

/-- The forest after the program has been planted and run. -/
def reentered : Forest :=
  let (placed, interpreter) := (Interpreter.start {} 10).placeProgram reentrant
  { declarations := placed.declarations, resolved := (interpreter.run 20 placed).2.state.resolved }

theorem reentered_history : Relation.ReflTransGen Step {} reentered := by
  have planted : Step {} (({} : Forest).plantProgram reentrant.unsettled) := .program reentrant
  refine (Relation.ReflTransGen.single planted).tail ?_
  have every : ((Interpreter.start {} 10).placeProgram reentrant).1.Every
      (· ∈ (({} : Forest).plantProgram reentrant.unsettled).declarations) :=
    Program.every_of_declarations fun d member => List.mem_append_right _ member
  exact .operation rfl (fun _ listed => absurd listed List.not_mem_nil) (.run 20 every)

/-- The type that counts is the one that the inner call has settled. The outer call finds the
length 5 afterwards, to no effect. -/
theorem settled_once_reentered :
    let declaration : Declaration Slot := ⟨"a", .array .int (.call "length" [.var "n"]), ⟨1⟩⟩
    declaration ∈ reentered.declarations ∧
    reentered.resolved.get? declaration.note = some (.array .int 2) ∧
    (Ty.array .int 2).tag = declaration.ty.tag ∧ (Ty.array .int 2).Sized ∧
    ∃ t, ({ resolved := reentered.resolved } : State).OnlyAdds t ∧
      ((∀ below, Eval.declare below declaration { resolved := reentered.resolved } = .ok () t) ∨
        ∃ failure, ∀ below, Eval.declare below declaration { resolved := reentered.resolved } =
          .error failure t) := by
  intro declaration
  have second : reentered.declarations[1]? = some declaration := rfl
  have settled : reentered.resolved.get? ⟨1⟩ = some (.array .int 2) := by decide +kernel
  have history := reentered_history
  -- Nothing else about the forest is of interest, and it must not be evaluated again.
  generalize reentered = forest at second settled history ⊢
  have member : declaration ∈ forest.declarations := List.mem_of_getElem? second
  obtain ⟨-, fits, -, -, -, -, evaluation⟩ := settled_once history
  obtain ⟨tagged, sized⟩ := fits declaration member _ settled
  exact ⟨member, settled, tagged, sized, (evaluation declaration member _ (.refl _)).1 _ settled⟩

end Forest

end TreeLang
