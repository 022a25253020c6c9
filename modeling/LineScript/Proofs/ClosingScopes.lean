import LineScript.Names.Scope

namespace LineScript

/-- A frame as bindings make it: each name is bound once, and none is empty. -/
structure Frame.Proper (frame : Frame) : Prop where
  nodup : frame.keys.Nodup
  filled : "" ∉ frame.keys

/-- The bindings of a frame, as they are offered to another one. -/
def Frame.offers (frame : Frame) : List (NameOffer × Int) :=
  frame.entries.map fun entry => (.text entry.1, entry.2)

namespace Frame.Proper

variable {frame inner : Frame}

theorem empty : Frame.Proper .empty := ⟨.nil, List.not_mem_nil⟩

theorem put (proper : frame.Proper) {name : String} (filled : name ≠ "") (symbol : Int) :
    Frame.Proper (OrderedMap.put frame name symbol) where
  nodup := OrderedMap.keys_put_nodup proper.nodup name symbol
  filled member := (OrderedMap.mem_keys_put.mp member).elim (Ne.symm filled) proper.filled

theorem putAll (proper : frame.Proper) (other : inner.Proper) :
    Frame.Proper (OrderedMap.putAll frame inner.entries) where
  nodup := OrderedMap.keys_putAll_nodup proper.nodup inner.entries
  filled member := (OrderedMap.mem_keys_putAll.mp member).elim other.filled proper.filled

end Frame.Proper

namespace Scope

/-- The frames around a place, after any use of them from an empty frame on. A merge need not be followed
by leaving the inner frame, and an update may have been refused halfway. -/
inductive Reachable : Scope → Prop
  | empty : Reachable .empty
  | define {scope next : Scope} {offer : NameOffer} {symbol : Int} :
      Reachable scope → scope.define offer symbol = .ok next → Reachable next
  | update {scope : Scope} (pairs : List (NameOffer × Int)) :
      Reachable scope → Reachable (scope.update pairs).1
  | push {scope : Scope} : Reachable scope → Reachable scope.push
  | pop {scope : Scope} : Reachable scope → Reachable scope.pop
  | merge {scope merged : Scope} : Reachable scope → scope.merge = .ok merged → Reachable merged
  | stay {scope merged : Scope} :
      Reachable scope → scope.merge = .ok merged → Reachable ⟨scope.inner, merged.frames⟩

/-- All frames of a scope are as bindings make them. -/
def Proper (scope : Scope) : Prop := ∀ frame ∈ scope.frames, frame.Proper

theorem define_cases {scope next : Scope} {offer : NameOffer} {symbol : Int}
    (defined : scope.define offer symbol = .ok next) :
    ∃ name, offer = .text name ∧ name ≠ "" ∧ next = ⟨scope.inner.put name symbol, scope.outer⟩ := by
  unfold define at defined
  split at defined
  · cases defined
  · next name given =>
    cases defined
    unfold NameOffer.name? at given
    split at given
    · next text =>
      split at given
      · cases given
      · next filled =>
        cases given
        exact ⟨name, rfl, fun blank => filled (by rw [blank]; rfl), rfl⟩
    · cases given

theorem define_text {name : String} (filled : name ≠ "") (scope : Scope) (symbol : Int) :
    scope.define (.text name) symbol = .ok ⟨scope.inner.put name symbol, scope.outer⟩ := by
  have offered : (NameOffer.text name).name? = some name :=
    if_neg (by rwa [String.isEmpty_iff])
  rw [define, offered]

namespace Proper

variable {scope next merged : Scope}

theorem define (proper : scope.Proper) {offer : NameOffer} {symbol : Int}
    (defined : scope.define offer symbol = .ok next) : next.Proper := by
  obtain ⟨name, rfl, filled, rfl⟩ := define_cases defined
  obtain ⟨here, around⟩ := List.forall_mem_cons.mp proper
  exact List.forall_mem_cons.mpr ⟨here.put filled symbol, around⟩

theorem defineEach (proper : scope.Proper) (pairs : List (NameOffer × Int)) :
    (scope.defineEach pairs).1.Proper := by
  induction pairs generalizing scope with
  | nil => exact proper
  | cons pair rest ih =>
    rw [Scope.defineEach]
    split
    · exact proper
    · next defined => exact ih (proper.define defined)

theorem pop (proper : scope.Proper) : scope.pop.Proper := by
  obtain ⟨inner, outer⟩ := scope
  cases outer with
  | nil => exact proper
  | cons frame outer => exact (List.forall_mem_cons.mp proper).2

theorem merge (proper : scope.Proper) (closed : scope.merge = .ok merged) : merged.Proper := by
  obtain ⟨inner, outer⟩ := scope
  cases outer with
  | nil => cases closed
  | cons frame outer =>
    cases closed
    obtain ⟨here, around⟩ := List.forall_mem_cons.mp proper
    obtain ⟨next, others⟩ := List.forall_mem_cons.mp around
    exact List.forall_mem_cons.mpr ⟨next.putAll here, others⟩

end Proper

theorem Reachable.proper {scope : Scope} (reachable : scope.Reachable) : scope.Proper := by
  induction reachable with
  | empty => exact List.forall_mem_singleton.mpr .empty
  | define _ defined ih => exact ih.define defined
  | update pairs _ ih => exact ih.defineEach _
  | push _ ih => exact List.forall_mem_cons.mpr ⟨.empty, ih⟩
  | pop _ ih => exact ih.pop
  | merge _ closed ih => exact ih.merge closed
  | stay _ closed ih =>
    exact List.forall_mem_cons.mpr ⟨(List.forall_mem_cons.mp ih).1, ih.merge closed⟩

theorem defineEach_offers {entries : List (String × Int)} (filled : "" ∉ entries.map (·.1))
    (scope : Scope) : scope.defineEach (Frame.offers ⟨entries⟩) =
      (⟨scope.inner.putAll entries, scope.outer⟩, none) := by
  induction entries generalizing scope with
  | nil => rfl
  | cons entry rest ih =>
    have named : entry.1 ≠ "" := Ne.symm (List.ne_of_not_mem_cons filled)
    rw [Frame.offers, List.map_cons, defineEach, define_text named]
    exact ih (List.not_mem_of_not_mem_cons filled) _

/-- The bindings of a proper frame can all be offered to another one, and none is refused. -/
theorem update_offers {frame : Frame} (proper : frame.Proper) (scope : Scope) :
    scope.update frame.offers = (⟨scope.inner.putAll frame.entries, scope.outer⟩, none) := by
  have names : (frame.offers.map (·.1)).Nodup := by
    have texts : frame.offers.map (·.1) = frame.keys.map .text := by
      rw [Frame.offers, OrderedMap.keys, List.map_map, List.map_map]
      rfl
    rw [texts]
    exact List.Pairwise.map _ (fun one two apart same => apart (NameOffer.text.inj same)) proper.nodup
  rw [update, OrderedMap.empty_putAll names]
  exact defineEach_offers proper.filled scope

/-- An update can fill an empty frame with the bindings of any proper one. -/
theorem Reachable.fill {frame : Frame} {around : List Frame} (reached : Reachable ⟨.empty, around⟩)
    (proper : frame.Proper) : Reachable ⟨frame, around⟩ := by
  have offered := reached.update frame.offers
  rw [update_offers proper, OrderedMap.empty_putAll proper.nodup] at offered
  exact offered

/-- The frames that can be reached are exactly the proper ones. -/
theorem reachable_iff_proper {scope : Scope} : scope.Reachable ↔ scope.Proper := by
  refine ⟨Reachable.proper, fun proper => ?_⟩
  obtain ⟨inner, outer⟩ := scope
  induction outer generalizing inner with
  | nil => exact Reachable.empty.fill (List.forall_mem_singleton.mp proper)
  | cons frame outer ih =>
    obtain ⟨here, around⟩ := List.forall_mem_cons.mp proper
    exact (ih frame around).push.fill here

theorem lookup?_eq (scope : Scope) (name : String) :
    scope.lookup? name = (scope.inner.get? name).or ((findIn name scope.outer).map (·.2)) := by
  rw [lookup?, find?, frames, findIn]
  cases scope.inner.get? name <;> rfl

/-- Closing a frame outwards keeps what is visible. The bindings of the inner frame are taken over one by
one, none of them refused, and from the next frame every name is then found as it was from the inner one.
The frames further out stay, and so do the places of the names in the next one: new names follow them,
in the order of the inner frame. -/
theorem merge_keeps_what_is_visible {scope : Scope} {frame : Frame} {outer : List Frame}
    (reachable : scope.Reachable) (around : scope.outer = frame :: outer) :
    ∃ merged, scope.merge = .ok merged ∧ scope.pop.update scope.inner.offers = (merged, none) ∧
      (∀ name, merged.lookup name = scope.lookup name) ∧ merged.outer = outer ∧
      merged.inner.keys = frame.keys ++ scope.inner.keys.filter (· ∉ frame.keys) := by
  have proper : scope.inner.Proper := reachable.proper scope.inner (List.mem_cons_self ..)
  obtain ⟨inner, _⟩ := scope
  cases around
  refine ⟨_, rfl, update_offers proper _, fun name => ?_, rfl, OrderedMap.keys_putAll proper.nodup⟩
  have same : lookup? ⟨frame.putAll inner.entries, outer⟩ name = lookup? ⟨inner, frame :: outer⟩ name := by
    calc lookup? ⟨frame.putAll inner.entries, outer⟩ name
        = ((inner.get? name).or (frame.get? name)).or ((findIn name outer).map (·.2)) := by
          rw [lookup?_eq, OrderedMap.get?_putAll proper.nodup]
      _ = (inner.get? name).or (lookup? ⟨frame, outer⟩ name) := by
          rw [Option.or_assoc, lookup?_eq]
      _ = lookup? ⟨inner, frame :: outer⟩ name := (lookup?_eq ⟨inner, frame :: outer⟩ name).symm
  rw [lookup, lookup, same]

/-- A name that hides one of the next frame, a new name, and a name that is new only to the next frame. -/
theorem merge_keeps_what_is_visible_of_hidden_names :
    let scope : Scope := ⟨⟨[("c", 4), ("b", 5), ("d", 6)]⟩, [⟨[("a", 1), ("b", 2)]⟩, ⟨[("c", 3)]⟩]⟩
    scope.Reachable ∧ ∃ merged, scope.merge = .ok merged ∧ merged.lookup "b" = .ok 5 ∧
      merged.lookup "c" = .ok 4 ∧ merged.lookup "e" = .error (.notDefined "e") ∧
      merged.outer = [⟨[("c", 3)]⟩] ∧ merged.inner.keys = ["a", "b", "c", "d"] := by
  intro scope
  have reachable : scope.Reachable :=
    (((Reachable.empty.update [(.text "c", 3)]).push.update [(.text "a", 1), (.text "b", 2)]).push.update
      [(.text "c", 0), (.text "b", 5), (.text "d", 6), (.text "c", 4), (.nothing, 7)])
  obtain ⟨merged, closed, _, visible, outer, keys⟩ := merge_keeps_what_is_visible reachable rfl
  refine ⟨reachable, merged, closed, ?_, ?_, ?_, outer, keys⟩ <;>
  · rw [visible]
    rfl

end Scope

end LineScript
