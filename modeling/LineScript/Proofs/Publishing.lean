import LineScript.Editor.Session
import LineScript.Proofs.Versions

namespace LineScript

/-- The diagnostics of a snapshot, as they are sent. -/
def Snapshot.wired (codec : Codec) (snapshot : Snapshot) : List WireDiagnostic :=
  snapshot.model.diagnostics.map (WireDiagnostic.ofDiagnostic codec snapshot.model.lines)

/-- A message of the editor about one of its documents. -/
inductive Notice where
  | opened (uri : String) (version : Option Int) (text : String)
  | changed (uri : String) (version : Option Int) (texts : List String)
  | closed (uri : String)

/-- The version and the text that a notice brings for a document: the last of the texts sent, and with
none the text as it was. -/
inductive Notice.Brings (store : Store) : Notice → String → Option Int → String → Prop
  | opened {uri version text} : Brings store (.opened uri version text) uri version text
  | changed {uri version texts text} : Brings store (.changed uri version (texts ++ [text])) uri version text
  | same {uri version snapshot} : store.get? uri = some snapshot →
      Brings store (.changed uri version []) uri version snapshot.text
  | blank {uri version} : store.get? uri = none → Brings store (.changed uri version []) uri version ""

section Following

variable (codec : Codec)

namespace Session

def receive (session : Session) : Notice → Reply Unit
  | .opened uri version text => session.didOpen codec uri version text
  | .changed uri version texts => session.didChange codec uri version texts
  | .closed uri => session.didClose uri

/-- What a notice can do: nothing, store a snapshot and show what is known of it, or forget a document
and clear what is shown of it. -/
inductive Effect (session : Session) : Session → List Publication → Prop
  | nothing : Effect session session []
  | shown {snapshot : Snapshot} :
      analyze snapshot.text session.store.blockScoping = .ok snapshot.model →
      Effect session ⟨session.store.replace snapshot.uri snapshot⟩
        [⟨snapshot.uri, snapshot.version, snapshot.wired codec⟩]
  | cleared (uri : String) : Effect session ⟨(session.store.close uri).2⟩ [⟨uri, none, []⟩]

/-- A text is stored and shown, unless its version is stale. -/
theorem update_cases (session : Session) (uri : String) (version : Option Int) (text : String) :
    (session.store.Stale uri version ∧ ∃ record,
      session.update codec uri version text = ⟨.ok (), session, [], [record]⟩) ∨
    (¬ session.store.Stale uri version ∧ ∃ (snapshot : Snapshot) (record : LogRecord),
      snapshot.uri = uri ∧ snapshot.version = version ∧ snapshot.text = text ∧
      analyze text session.store.blockScoping = .ok snapshot.model ∧
      session.update codec uri version text = ⟨.ok (), ⟨session.store.replace uri snapshot⟩,
        [⟨uri, version, snapshot.wired codec⟩], [record]⟩) := by
  rcases session.store.update_cases uri version text with
    ⟨stale, record, updated⟩ | ⟨current, model, record, analyzed, updated⟩
  · exact .inl ⟨stale, record, by rw [update, updated]⟩
  · refine .inr ⟨current, ⟨uri, version, text, model⟩, record, rfl, rfl, rfl, analyzed, ?_⟩
    rw [update, updated]
    rfl

theorem update_effect (session : Session) (uri : String) (version : Option Int) (text : String) :
    session.Effect codec (session.update codec uri version text).session
      (session.update codec uri version text).published := by
  rcases session.update_cases codec uri version text with
    ⟨_, record, updated⟩ | ⟨_, snapshot, record, rfl, rfl, rfl, analyzed, updated⟩
  · rw [updated]
    exact .nothing
  · rw [updated]
    exact .shown analyzed

theorem receive_effect (session : Session) (notice : Notice) :
    session.Effect codec (session.receive codec notice).session
      (session.receive codec notice).published := by
  cases notice with
  | opened uri version text => exact session.update_effect codec uri version text
  | changed uri version texts => exact session.update_effect codec uri version _
  | closed uri => exact .cleared uri

theorem update_outcome (session : Session) (uri : String) (version : Option Int) (text : String) :
    (session.update codec uri version text).outcome = .ok () := by
  rcases session.update_cases codec uri version text with ⟨_, _, updated⟩ | ⟨_, _, _, _, _, _, _, updated⟩
  · rw [updated]
  · rw [updated]

/-- No notice is turned down. -/
theorem receive_outcome (session : Session) (notice : Notice) :
    (session.receive codec notice).outcome = .ok () := by
  cases notice with
  | opened uri version text => exact session.update_outcome codec uri version text
  | changed uri version texts => exact session.update_outcome codec uri version _
  | closed uri => rfl

variable {codec}

/-- A text is stored unless its version is stale. -/
theorem update_stores {session : Session} {uri : String} {version : Option Int}
    (current : ¬ session.store.Stale uri version) (text : String) : ∃ snapshot,
      (session.update codec uri version text).session.store.get? uri = some snapshot ∧
      snapshot.version = version ∧ snapshot.text = text := by
  rcases session.update_cases codec uri version text with
    ⟨stale, _⟩ | ⟨_, snapshot, record, _, number, same, _, updated⟩
  · exact absurd stale current
  · rw [updated, Store.get?_replace, if_pos rfl]
    exact ⟨snapshot, rfl, number, same⟩

/-- So is the text that a notice brings. -/
theorem receive_stores {session : Session} {notice : Notice} {uri text : String}
    {version : Option Int} (brings : notice.Brings session.store uri version text)
    (current : ¬ session.store.Stale uri version) :
    ∃ snapshot, (session.receive codec notice).session.store.get? uri = some snapshot ∧
      snapshot.version = version ∧ snapshot.text = text := by
  have stores := @update_stores codec _ _ _ current text
  cases brings with
  | opened => exact stores
  | changed => simpa [receive, didChange] using stores
  | same found => simpa [receive, didChange, found] using stores
  | blank none => simpa [receive, didChange, none] using stores

end Session

/-- A session, and all that was published on the way to it. -/
structure Transcript where
  session : Session
  published : List Publication

def Transcript.next (transcript : Transcript) (notice : Notice) : Transcript :=
  let reply := transcript.session.receive codec notice
  ⟨reply.session, transcript.published ++ reply.published⟩

/-- A session that follows the notices of an editor. -/
def Session.follow (session : Session) (notices : List Notice) : Transcript :=
  notices.foldl (Transcript.next codec) ⟨session, []⟩

/-- What the editor shows of a document. -/
def lastSent (uri : String) (published : List Publication) : Option Publication :=
  (published.filter (·.uri = uri)).getLast?

theorem lastSent_own (published : List Publication) (sent : Publication) :
    lastSent sent.uri (published ++ [sent]) = some sent := by
  simp [lastSent]

theorem lastSent_other {uri : String} {more : List Publication} (others : ∀ sent ∈ more, sent.uri ≠ uri)
    (published : List Publication) : lastSent uri (published ++ more) = lastSent uri published := by
  have dropped : more.filter (·.uri = uri) = [] := by
    rw [List.filter_eq_nil_iff]
    intro sent member
    simpa using others sent member
  rw [lastSent, List.filter_append, dropped, List.append_nil, lastSent]

/-- What is shown of a document fits what is stored of it. -/
def Shown (shown : Option Publication) (blockScoping : Bool) (uri : String) : Option Snapshot → Prop
  | some snapshot => snapshot.uri = uri ∧ analyze snapshot.text blockScoping = .ok snapshot.model ∧
      shown = some ⟨uri, snapshot.version, snapshot.wired codec⟩
  | none => ∀ sent ∈ shown, sent.diagnostics = []

/-- The editor shows what is stored. -/
structure Transcript.InStep (transcript : Transcript) (blockScoping : Bool) : Prop where
  scoping : transcript.session.store.blockScoping = blockScoping
  shown : ∀ uri, Shown codec (lastSent uri transcript.published) blockScoping uri
    (transcript.session.store.get? uri)

namespace Transcript.InStep

variable {codec} {transcript : Transcript} {blockScoping : Bool}
  (inStep : transcript.InStep codec blockScoping)
include inStep

/-- After an effect on one document only that document has to be looked at. -/
theorem frame (uri : String) {store : Store} {more : List Publication}
    (scoping : store.blockScoping = transcript.session.store.blockScoping)
    (about : ∀ sent ∈ more, sent.uri = uri)
    (kept : ∀ other, uri ≠ other → store.get? other = transcript.session.store.get? other)
    (own : Shown codec (lastSent uri (transcript.published ++ more)) blockScoping uri (store.get? uri)) :
    InStep codec ⟨⟨store⟩, transcript.published ++ more⟩ blockScoping := by
  refine ⟨scoping.trans inStep.scoping, fun other => ?_⟩
  by_cases here : uri = other
  · exact here ▸ own
  · have silent : ∀ sent ∈ more, sent.uri ≠ other := fun sent member => about sent member ▸ here
    simp only [lastSent_other silent, kept other here]
    exact inStep.shown other

theorem effect {session : Session} {more : List Publication}
    (effect : transcript.session.Effect codec session more) :
    InStep codec ⟨session, transcript.published ++ more⟩ blockScoping := by
  cases effect with
  | nothing => simpa using inStep
  | @shown snapshot analyzed =>
    refine inStep.frame snapshot.uri rfl (by simp) ?_ ?_
    · intro other different
      rw [Store.get?_replace, if_neg different]
    · rw [Store.get?_replace, if_pos rfl]
      exact ⟨rfl, inStep.scoping ▸ analyzed, lastSent_own transcript.published ⟨snapshot.uri, _, _⟩⟩
  | cleared uri =>
    refine inStep.frame uri rfl (by simp) ?_ ?_
    · intro other different
      rw [Store.get?_close, if_neg different]
    · rw [Store.get?_close, if_pos rfl]
      intro sent last
      cases (lastSent_own transcript.published ⟨uri, none, []⟩).symm.trans last
      rfl

theorem next (notice : Notice) : (transcript.next codec notice).InStep codec blockScoping :=
  inStep.effect (transcript.session.receive_effect codec notice)

end Transcript.InStep

theorem Session.follow_inStep (blockScoping : Bool) (notices : List Notice) :
    (Session.follow codec ⟨.empty blockScoping⟩ notices).InStep codec blockScoping := by
  induction notices using List.reverseRecOn with
  | nil => exact ⟨rfl, fun _ _ => nofun⟩
  | append_singleton notices notice ih =>
    rw [follow, List.foldl_append]
    exact ih.next notice

/-- What is known of a stored document: the model of its text. -/
theorem Session.follow_analyzed {blockScoping : Bool} {notices : List Notice} {uri : String}
    {snapshot : Snapshot}
    (stored : (Session.follow codec ⟨.empty blockScoping⟩ notices).session.store.get? uri = some snapshot) :
    analyze snapshot.text blockScoping = .ok snapshot.model := by
  have shown := (Session.follow_inStep codec blockScoping notices).shown uri
  rw [stored] at shown
  exact shown.2.1

end Following

/-- Whatever the editor reports, and however it counts, what it shows is in step with what is stored: of
a stored document the diagnostics of its text, under the version stored, and of any other one nothing.
No report is turned down, and the text that it brings is stored unless its version is stale. -/
theorem editor_shows_what_is_stored (codec : Codec) (blockScoping : Bool) (notices : List Notice) :
    let reached := Session.follow codec ⟨.empty blockScoping⟩ notices
    reached.session.store.blockScoping = blockScoping ∧
    (∀ uri snapshot, reached.session.store.get? uri = some snapshot →
      analyze snapshot.text blockScoping = .ok snapshot.model ∧
      lastSent uri reached.published = some ⟨uri, snapshot.version, snapshot.wired codec⟩) ∧
    (∀ uri, reached.session.store.get? uri = none →
      ∀ sent ∈ lastSent uri reached.published, sent.diagnostics = []) ∧
    (∀ notice, (reached.session.receive codec notice).outcome = .ok ()) ∧
    ∀ notice uri version text, Notice.Brings reached.session.store notice uri version text →
      ¬ reached.session.store.Stale uri version →
      ∃ snapshot, (reached.next codec notice).session.store.get? uri = some snapshot ∧
        snapshot.version = version ∧ snapshot.text = text := by
  intro reached
  have inStep : reached.InStep codec blockScoping := Session.follow_inStep codec blockScoping notices
  refine ⟨inStep.scoping, ?_, ?_, reached.session.receive_outcome codec, ?_⟩
  · intro uri snapshot found
    have shown := inStep.shown uri
    rw [found] at shown
    exact shown.2
  · intro uri absent
    have shown := inStep.shown uri
    rw [absent] at shown
    exact shown
  · intro notice uri version text brings current
    exact Session.receive_stores brings current

/-- A stale change, a change without a text, a document that is closed, and what a next change does. -/
theorem editor_shows_what_is_stored_after_stale_change :
    let notices : List Notice := [.opened "a" (some 5) "let x = y", .changed "a" (some 3) ["z"],
      .changed "a" (some 5) [], .opened "b" (some 1) "let", .closed "b"]
    let reached := Session.follow Utf16.codec ⟨.empty true⟩ notices
    ∃ snapshot later, reached.session.store.get? "a" = some snapshot ∧
      lastSent "a" reached.published = some ⟨"a", some 5, snapshot.wired Utf16.codec⟩ ∧
      (snapshot.wired Utf16.codec).map (·.message) = ["'y' is not defined."] ∧
      reached.session.store.get? "b" = none ∧
      (∀ sent ∈ lastSent "b" reached.published, sent.diagnostics = []) ∧
      (reached.next Utf16.codec (.changed "a" (some 6) [])).session.store.get? "a" = some later ∧
      later.version = some 6 ∧ later.text = "let x = y" := by
  intro notices reached
  have stored : (reached.session.store.get? "a").map (fun snapshot => (snapshot.version, snapshot.text)) =
      some (some 5, "let x = y") := by decide +kernel
  have absent : reached.session.store.get? "b" = none := by
    rw [← Option.isNone_iff_eq_none]
    decide +kernel
  have messages : (lastSent "a" reached.published).map (·.diagnostics.map (·.message)) =
      some ["'y' is not defined."] := by decide +kernel
  obtain ⟨_, shown, cleared, _, stores⟩ := editor_shows_what_is_stored Utf16.codec true notices
  obtain ⟨snapshot, found, fields⟩ := Option.map_eq_some_iff.mp stored
  obtain ⟨version, text⟩ : snapshot.version = some 5 ∧ snapshot.text = "let x = y" := by
    simpa using fields
  obtain ⟨_, last⟩ := shown "a" snapshot found
  rw [version] at last
  have current : ¬ reached.session.store.Stale "a" (some 6) := by
    rintro ⟨other, also, number, known, offered, given, less⟩
    cases given
    cases found.symm.trans also
    cases version.symm.trans known
    omega
  obtain ⟨later, kept, number, same⟩ :=
    stores (.changed "a" (some 6) []) "a" (some 6) snapshot.text (.same found) current
  rw [last] at messages
  exact ⟨snapshot, later, found, last, Option.some.inj messages, absent, cleared "b" absent, kept, number,
    same.trans text⟩

end LineScript
