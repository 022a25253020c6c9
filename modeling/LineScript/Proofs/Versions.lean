import LineScript.Editor.Store
import LineScript.Proofs.Occurrences
import Mathlib.Data.List.Induction

namespace LineScript

namespace Store

/-- The store with another snapshot for a document. -/
def replace (store : Store) (uri : String) (snapshot : Snapshot) : Store :=
  { store with snapshots := store.snapshots.put uri snapshot }

theorem get?_replace (store : Store) (uri other : String) (snapshot : Snapshot) :
    (store.replace uri snapshot).get? other = if uri = other then some snapshot else store.get? other :=
  OrderedMap.get?_put _ _ _ _

theorem get?_close (store : Store) (uri other : String) :
    (store.close uri).2.get? other = if uri = other then none else store.get? other :=
  OrderedMap.get?_erase _ _ _

/-- The stored version of a document is known and beyond the one that is offered. -/
def Stale (store : Store) (uri : String) (version : Option Int) : Prop :=
  ∃ snapshot ∈ store.get? uri, ∃ stored ∈ snapshot.version, ∃ offered ∈ version, offered < stored

theorem newerVersion?_eq_some {store : Store} {uri : String} {version : Option Int}
    {offered stored : Int} (newer : store.newerVersion? uri version = some (offered, stored)) :
    store.Stale uri version := by
  simp only [newerVersion?, Option.bind_eq_bind, Option.bind_eq_some_iff,
    Option.ite_none_right_eq_some] at newer
  obtain ⟨snapshot, found, known, version', number, given, less, _⟩ := newer
  exact ⟨snapshot, found, known, version', number, given, less⟩

theorem newerVersion?_eq_none {store : Store} {uri : String} {version : Option Int}
    (none : store.newerVersion? uri version = none) : ¬ store.Stale uri version := by
  rintro ⟨snapshot, found, stored, known, offered, given, less⟩
  simp [newerVersion?, Option.mem_def.mp found, Option.mem_def.mp known, Option.mem_def.mp given,
    less] at none

/-- What an update can do: a stale one is ignored, and any other one is stored. -/
theorem update_cases (store : Store) (uri : String) (version : Option Int) (text : String) :
    (store.Stale uri version ∧ ∃ record, store.update uri version text = .ok (none, store, record)) ∨
    (¬ store.Stale uri version ∧ ∃ model record, analyze text store.blockScoping = .ok model ∧
      store.update uri version text = .ok (some ⟨uri, version, text, model⟩,
        store.replace uri ⟨uri, version, text, model⟩, record)) := by
  unfold update
  split
  · next offered stored newer => exact .inl ⟨newerVersion?_eq_some newer, _, rfl⟩
  · next current =>
    obtain ⟨model, analyzed⟩ : ∃ model, analyze text store.blockScoping = .ok model :=
      ⟨_, analyze_eq text store.blockScoping⟩
    rw [analyzed]
    exact .inr ⟨newerVersion?_eq_none current, model, _, rfl, rfl⟩

end Store

/-- A call that writes to a store. -/
inductive StoreCall where
  | update (uri : String) (version : Int) (text : String)
  | close (uri : String)
  deriving DecidableEq

/-- A version of a document, with the text that it is offered with. -/
structure Offer where
  version : Int
  text : String
  deriving DecidableEq

namespace StoreCall

def uri : StoreCall → String
  | update uri _ _ => uri
  | close uri => uri

def offer? (uri : String) : StoreCall → Option Offer
  | update other version text => if other = uri then some ⟨version, text⟩ else none
  | close _ => none

end StoreCall

namespace Store

/-- The store behind a call. -/
def perform (store : Store) : StoreCall → Except Fault Store
  | .update uri version text => (store.update uri (some version) text).map (·.2.1)
  | .close uri => .ok (store.close uri).2

def run (store : Store) (calls : List StoreCall) : Except Fault Store := calls.foldlM perform store

theorem run_concat {store reached : Store} {calls : List StoreCall}
    (run : store.run calls = .ok reached) (call : StoreCall) :
    store.run (calls ++ [call]) = reached.perform call := by
  rw [Store.run] at run ⊢
  rw [List.foldlM_append, run]
  exact bind_pure (reached.perform call)

end Store

/-- The updates of a document since it was closed last. -/
def offersSince (uri : String) (calls : List StoreCall) : List Offer :=
  (calls.reverse.takeWhile (· ≠ .close uri)).reverse.filterMap (StoreCall.offer? uri)

theorem offersSince_update (uri : String) (calls : List StoreCall) (version : Int) (text : String) :
    offersSince uri (calls ++ [.update uri version text]) =
      offersSince uri calls ++ [⟨version, text⟩] := by
  simp [offersSince, StoreCall.offer?]

theorem offersSince_close (uri : String) (calls : List StoreCall) :
    offersSince uri (calls ++ [.close uri]) = [] := by
  simp [offersSince]

/-- Calls about other documents leave no trace. -/
theorem offersSince_other {uri : String} {call : StoreCall} (other : call.uri ≠ uri)
    (calls : List StoreCall) : offersSince uri (calls ++ [call]) = offersSince uri calls := by
  cases call with
  | update another version text =>
    have different : another ≠ uri := other
    simp [offersSince, StoreCall.offer?, different]
  | close another =>
    have different : another ≠ uri := other
    simp [offersSince, StoreCall.offer?, different]

theorem offersSince_filter (uri : String) (calls : List StoreCall) :
    offersSince uri (calls.filter (·.uri = uri)) = offersSince uri calls := by
  induction calls using List.reverseRecOn with
  | nil => rfl
  | append_singleton calls call ih =>
    rw [List.filter_append]
    by_cases own : call.uri = uri
    · have kept : [call].filter (·.uri = uri) = [call] := by simp [own]
      rw [kept]
      cases call with
      | update another version text =>
        obtain rfl : another = uri := own
        rw [offersSince_update, offersSince_update, ih]
      | close another =>
        obtain rfl : another = uri := own
        rw [offersSince_close, offersSince_close]
    · have dropped : [call].filter (·.uri = uri) = [] := by simp [own]
      rw [dropped, List.append_nil, ih, offersSince_other own]

/-- The last of the offers with the greatest version. -/
def Newest (offers : List Offer) (offer : Offer) : Prop :=
  ∃ before after, offers = before ++ offer :: after ∧
    (∀ other ∈ before, other.version ≤ offer.version) ∧ ∀ other ∈ after, other.version < offer.version

namespace Newest

variable {offers : List Offer} {offer : Offer}

theorem mem (newest : Newest offers offer) : offer ∈ offers := by
  obtain ⟨before, after, rfl, _⟩ := newest
  simp

theorem version_le (newest : Newest offers offer) :
    ∀ other ∈ offers, other.version ≤ offer.version := by
  obtain ⟨before, after, rfl, earlier, later⟩ := newest
  intro other member
  rcases List.mem_append.mp member with inside | behind
  · exact earlier other inside
  · rcases List.mem_cons.mp behind with rfl | behind
    · omega
    · have := later other behind
      omega

theorem append_older (newest : Newest offers offer) {next : Offer}
    (older : next.version < offer.version) : Newest (offers ++ [next]) offer := by
  obtain ⟨before, after, rfl, earlier, later⟩ := newest
  refine ⟨before, after ++ [next], by simp, earlier, ?_⟩
  intro other member
  rcases List.mem_append.mp member with inside | last
  · exact later other inside
  · rwa [List.mem_singleton.mp last]

theorem append_latest {next : Offer} (latest : ∀ other ∈ offers, other.version ≤ next.version) :
    Newest (offers ++ [next]) next :=
  ⟨offers, [], rfl, latest, by simp⟩

/-- Among the offers of its version it is the last. -/
theorem getLast?_filter (newest : Newest offers offer) :
    (offers.filter (·.version = offer.version)).getLast? = some offer := by
  obtain ⟨before, after, rfl, _, later⟩ := newest
  have none : after.filter (·.version = offer.version) = [] := by
    rw [List.filter_eq_nil_iff]
    intro other behind
    have := later other behind
    simp only [decide_eq_true_eq]
    omega
  simp [none]

theorem unique (newest : Newest offers offer) {other : Offer} (also : Newest offers other) :
    other = offer := by
  have one := newest.version_le other also.mem
  have two := also.version_le offer newest.mem
  have same : other.version = offer.version := by omega
  have last := newest.getLast?_filter
  rw [← same, also.getLast?_filter] at last
  exact Option.some.inj last

/-- With different versions the order of the offers does not matter. -/
theorem unique_of_perm (newest : Newest offers offer) {others : List Offer} (perm : others.Perm offers)
    (distinct : (offers.map (·.version)).Nodup) {other : Offer} (also : Newest others other) :
    other = offer := by
  have inside := perm.subset also.mem
  have one := newest.version_le other inside
  have two := also.version_le offer (perm.symm.subset newest.mem)
  have same : other.version = offer.version := by omega
  exact List.inj_on_of_nodup_map distinct inside newest.mem same

end Newest

/-- The snapshot is the one that an offer of a document leads to. -/
structure Offer.Makes (offer : Offer) (blockScoping : Bool) (uri : String) (snapshot : Snapshot) :
    Prop where
  uri : snapshot.uri = uri
  version : snapshot.version = some offer.version
  text : snapshot.text = offer.text
  model : analyze offer.text blockScoping = .ok snapshot.model

theorem Offer.Makes.unique {offer : Offer} {blockScoping : Bool} {uri : String}
    {first second : Snapshot} (one : offer.Makes blockScoping uri first)
    (two : offer.Makes blockScoping uri second) : first = second := by
  obtain ⟨_, version, text, model⟩ := first
  obtain ⟨_, version', text', model'⟩ := second
  have sameModel : model = model' := Except.ok.inj (one.model.symm.trans two.model)
  have sameUri := one.uri.trans two.uri.symm
  have sameVersion := one.version.trans two.version.symm
  have sameText := one.text.trans two.text.symm
  simp only at sameUri sameVersion sameText
  rw [sameModel, sameUri, sameVersion, sameText]

/-- What a store holds after some calls: of each document the newest offer since it was closed. -/
structure Store.Holds (store : Store) (blockScoping : Bool) (calls : List StoreCall) : Prop where
  scoping : store.blockScoping = blockScoping
  absent : ∀ uri, offersSince uri calls = [] → store.get? uri = none
  present : ∀ uri, offersSince uri calls ≠ [] → ∃ offer snapshot, Newest (offersSince uri calls) offer ∧
    store.get? uri = some snapshot ∧ offer.Makes blockScoping uri snapshot

namespace Store.Holds

variable {store : Store} {blockScoping : Bool} {calls : List StoreCall}
  (holds : store.Holds blockScoping calls)
include holds

/-- To be behind what is stored is to be behind something offered. -/
theorem stale_iff (uri : String) (version : Int) :
    store.Stale uri (some version) ↔ ∃ offer ∈ offersSince uri calls, version < offer.version := by
  by_cases none : offersSince uri calls = []
  · simp [Stale, holds.absent uri none, none]
  · obtain ⟨newest, snapshot, first, found, made⟩ := holds.present uri none
    constructor
    · rintro ⟨other, also, stored, known, offered, given, less⟩
      cases given
      cases found.symm.trans also
      cases made.version.symm.trans known
      exact ⟨newest, first.mem, less⟩
    · rintro ⟨offer, member, less⟩
      have bound := first.version_le offer member
      exact ⟨snapshot, found, newest.version, made.version, version, rfl, by omega⟩

/-- After a call only its own document has to be looked at. -/
theorem frame (uri : String) {call : StoreCall} (about : call.uri = uri) {after : Store}
    (scoping : after.blockScoping = store.blockScoping)
    (kept : ∀ other, uri ≠ other → after.get? other = store.get? other)
    (absent : offersSince uri (calls ++ [call]) = [] → after.get? uri = none)
    (present : offersSince uri (calls ++ [call]) ≠ [] → ∃ offer snapshot,
      Newest (offersSince uri (calls ++ [call])) offer ∧ after.get? uri = some snapshot ∧
      offer.Makes blockScoping uri snapshot) :
    after.Holds blockScoping (calls ++ [call]) := by
  refine ⟨scoping.trans holds.scoping, fun other => ?_, fun other => ?_⟩
  · by_cases here : uri = other
    · exact here ▸ absent
    · rw [offersSince_other (about ▸ here), kept other here]
      exact holds.absent other
  · by_cases here : uri = other
    · exact here ▸ present
    · rw [offersSince_other (about ▸ here), kept other here]
      exact holds.present other

theorem closed (uri : String) : (store.close uri).2.Holds blockScoping (calls ++ [.close uri]) := by
  refine holds.frame uri rfl rfl ?_ ?_ ?_
  · intro other different
    rw [get?_close, if_neg different]
  · intro _
    rw [get?_close, if_pos rfl]
  · intro some
    exact absurd (offersSince_close uri calls) some

theorem ignored {uri : String} {version : Int} (text : String)
    (stale : store.Stale uri (some version)) :
    store.Holds blockScoping (calls ++ [.update uri version text]) := by
  obtain ⟨offer, member, less⟩ := (holds.stale_iff uri version).mp stale
  obtain ⟨newest, snapshot, first, found, made⟩ := holds.present uri (List.ne_nil_of_mem member)
  have bound := first.version_le offer member
  have still : Newest (offersSince uri calls ++ [⟨version, text⟩]) newest :=
    first.append_older (by simp only; omega)
  rw [← offersSince_update] at still
  refine holds.frame uri rfl rfl (fun _ _ => rfl) ?_ fun _ => ⟨newest, snapshot, still, found, made⟩
  intro none
  exact absurd still.mem (none ▸ List.not_mem_nil)

theorem stored {uri : String} {version : Int} {text : String} {model : Model}
    (current : ¬ store.Stale uri (some version))
    (analyzed : analyze text store.blockScoping = .ok model) :
    (store.replace uri ⟨uri, some version, text, model⟩).Holds blockScoping
      (calls ++ [.update uri version text]) := by
  rw [holds.stale_iff uri version] at current
  have latest : Newest (offersSince uri calls ++ [⟨version, text⟩]) ⟨version, text⟩ := by
    apply Newest.append_latest
    intro other member
    have behind : ¬ version < other.version := fun less => current ⟨other, member, less⟩
    simp only
    omega
  rw [← offersSince_update] at latest
  have found : (store.replace uri ⟨uri, some version, text, model⟩).get? uri =
      some ⟨uri, some version, text, model⟩ := by
    rw [get?_replace, if_pos rfl]
  refine holds.frame uri rfl rfl ?_ ?_ fun _ => ⟨_, _, latest, found, rfl, rfl, rfl, ?_⟩
  · intro other different
    rw [get?_replace, if_neg different]
  · intro none
    exact absurd latest.mem (none ▸ List.not_mem_nil)
  · rw [← holds.scoping]
    exact analyzed

theorem step (call : StoreCall) :
    ∃ after, store.perform call = .ok after ∧ after.Holds blockScoping (calls ++ [call]) := by
  cases call with
  | close uri => exact ⟨_, rfl, holds.closed uri⟩
  | update uri version text =>
    rcases store.update_cases uri (some version) text with
      ⟨stale, record, updated⟩ | ⟨current, model, record, analyzed, updated⟩
    · exact ⟨store, by rw [perform, updated]; rfl, holds.ignored text stale⟩
    · exact ⟨_, by rw [perform, updated]; rfl, holds.stored current analyzed⟩

/-- What two stores hold of a document is the same if their newest offers are. -/
theorem get?_eq {reached : Store} {others : List StoreCall} (also : reached.Holds blockScoping others)
    {uri : String} (empty : offersSince uri others = [] ↔ offersSince uri calls = [])
    (same : ∀ offer other, Newest (offersSince uri calls) offer → Newest (offersSince uri others) other →
      other = offer) : reached.get? uri = store.get? uri := by
  by_cases none : offersSince uri calls = []
  · rw [holds.absent uri none, also.absent uri (empty.mpr none)]
  · obtain ⟨offer, snapshot, first, found, made⟩ := holds.present uri none
    obtain ⟨other, snapshot', second, found', made'⟩ := also.present uri (mt empty.mp none)
    obtain rfl := same offer other first second
    rw [found, found', made.unique made']

end Store.Holds

/-- Whatever is called, a store holds the newest offers. -/
theorem Store.run_holds (blockScoping : Bool) (calls : List StoreCall) :
    ∃ store, (Store.empty blockScoping).run calls = .ok store ∧ store.Holds blockScoping calls := by
  induction calls using List.reverseRecOn with
  | nil => exact ⟨_, rfl, rfl, fun _ _ => rfl, fun _ some => absurd rfl some⟩
  | append_singleton calls call ih =>
    obtain ⟨store, run, holds⟩ := ih
    obtain ⟨after, performed, still⟩ := holds.step call
    exact ⟨after, (run_concat run call).trans performed, still⟩

/-- The newest version of a document wins, in whatever order the versions arrive: the store holds the
last of the updates with the greatest version since the document was closed, an update is refused
exactly if it is behind one of these, and neither calls about other documents nor the order of
different versions matter. -/
theorem store_keeps_newest (blockScoping : Bool) (calls : List StoreCall) :
    ∃ store, (Store.empty blockScoping).run calls = .ok store ∧ ∀ uri,
      (offersSince uri calls = [] → store.get? uri = none) ∧
      (offersSince uri calls ≠ [] → ∃ offer snapshot, Newest (offersSince uri calls) offer ∧
        store.get? uri = some snapshot ∧ offer.Makes blockScoping uri snapshot) ∧
      (∀ version text, ∃ answer after record,
        store.update uri (some version) text = .ok (answer, after, record) ∧
        (answer = none ↔ ∃ offer ∈ offersSince uri calls, version < offer.version) ∧
        (answer = none → after = store)) ∧
      (∃ alone, (Store.empty blockScoping).run (calls.filter (·.uri = uri)) = .ok alone ∧
        alone.get? uri = store.get? uri) ∧
      ∀ others, (offersSince uri others).Perm (offersSince uri calls) →
        ((offersSince uri calls).map (·.version)).Nodup →
        ∃ reached, (Store.empty blockScoping).run others = .ok reached ∧
          reached.get? uri = store.get? uri := by
  obtain ⟨store, run, holds⟩ := Store.run_holds blockScoping calls
  refine ⟨store, run, fun uri => ⟨holds.absent uri, holds.present uri, ?_, ?_, ?_⟩⟩
  · intro version text
    rw [← holds.stale_iff uri version]
    rcases store.update_cases uri (some version) text with
      ⟨stale, record, updated⟩ | ⟨current, model, record, _, updated⟩
    · exact ⟨none, store, record, updated, by simp [stale], fun _ => rfl⟩
    · exact ⟨_, _, record, updated, by simp [current], nofun⟩
  · obtain ⟨alone, run', also⟩ := Store.run_holds blockScoping (calls.filter (·.uri = uri))
    have same := offersSince_filter uri calls
    refine ⟨alone, run', holds.get?_eq also (by rw [same]) ?_⟩
    rw [same]
    exact fun offer other first second => first.unique second
  · intro others perm distinct
    obtain ⟨reached, run', also⟩ := Store.run_holds blockScoping others
    refine ⟨reached, run', holds.get?_eq also ⟨?_, ?_⟩ ?_⟩
    · intro none
      rw [none] at perm
      exact perm.nil_eq.symm
    · intro none
      rw [none] at perm
      exact perm.eq_nil
    · exact fun offer other first second => first.unique_of_perm perm distinct second

/-- A document that is opened again under a lower version, and then sent an older one. -/
theorem store_keeps_newest_of_reopened :
    let calls : List StoreCall := [.update "a" 5 "x", .close "a", .update "b" 9 "",
      .update "a" 2 "let y = 1", .update "a" 1 "y"]
    let others : List StoreCall := [.update "a" 1 "y", .update "a" 2 "let y = 1"]
    offersSince "a" calls = [⟨2, "let y = 1"⟩, ⟨1, "y"⟩] ∧
      (offersSince "a" others).Perm (offersSince "a" calls) ∧
      ((offersSince "a" calls).map (·.version)).Nodup ∧
      ∃ store reached snapshot record, (Store.empty true).run calls = .ok store ∧
        (Store.empty true).run others = .ok reached ∧ store.get? "a" = some snapshot ∧
        reached.get? "a" = some snapshot ∧ snapshot.version = some 2 ∧ snapshot.text = "let y = 1" ∧
        store.update "a" (some 1) "z" = .ok (none, store, record) := by
  intro calls others
  have since : offersSince "a" calls = [⟨2, "let y = 1"⟩, ⟨1, "y"⟩] := by decide
  have perm : (offersSince "a" others).Perm (offersSince "a" calls) := by decide
  have distinct : ((offersSince "a" calls).map (·.version)).Nodup := by decide
  have first : Newest (offersSince "a" calls) ⟨2, "let y = 1"⟩ :=
    ⟨[], [⟨1, "y"⟩], since, by decide, by decide⟩
  obtain ⟨store, run, keeps⟩ := store_keeps_newest true calls
  obtain ⟨_, present, answers, _, anyOrder⟩ := keeps "a"
  obtain ⟨offer, snapshot, newest, found, made⟩ := present (by rw [since]; decide)
  obtain rfl := first.unique newest
  obtain ⟨reached, run', same⟩ := anyOrder others perm distinct
  obtain ⟨answer, after, record, updated, refused, unchanged⟩ := answers 1 "z"
  obtain rfl : answer = none := refused.mpr ⟨_, newest.mem, by decide⟩
  obtain rfl := unchanged rfl
  exact ⟨since, perm, distinct, _, reached, snapshot, record, run, run', found, same.trans found,
    made.version, made.text, updated⟩

end LineScript
