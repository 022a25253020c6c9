import LineScript.Document.Cursor
import LineScript.Proofs.Anatomy
import LineScript.Proofs.Occurrences
import Mathlib.Data.List.Find

namespace LineScript

theorem Position.later_le {first second bound : Position} (one : first ≤ bound)
    (two : second ≤ bound) : first.later second ≤ bound := by
  unfold Position.later
  split
  · exact two
  · exact one

theorem Position.earlier_le {first second : Position} : first.earlier second ≤ second := by
  unfold Position.earlier
  split
  · exact .inr rfl
  · next order =>
    rw [Position.lt_iff] at order
    rw [Position.le_iff]
    omega

theorem Position.le_later {first second : Position} : second ≤ first.later second := by
  unfold Position.later
  split
  · exact .inr rfl
  · next order =>
    rw [Position.lt_iff] at order
    rw [Position.le_iff]
    omega

theorem Range.contains_eq_false {range : Range} {position : Position}
    (passed : range.stop ≤ position) : range.contains position = false := by
  rw [Bool.eq_false_iff, ne_eq, Range.contains_iff]
  exact fun inside => Position.not_lt_of_le passed inside.2

theorem Range.point_contains (start position : Position) :
    (Range.point start).contains position = false := by
  rw [Bool.eq_false_iff, ne_eq, Range.contains_iff]
  exact fun inside => Position.not_lt_of_le inside.1 inside.2

/-- What precedes a token ends before every position in the token. -/
theorem Precedes.stop_le {first token : Token} (before : Precedes first token) {position : Position}
    (here : token.range.contains position) : first.range.stop ≤ position :=
  Position.le_trans before (Range.contains_iff.mp here).1

namespace Tiled

/-- A token with a position in it does not stand behind what follows it. -/
theorem not_precedes_back {before after : List Token} {token other : Token}
    (tiled : Tiled (before ++ other :: after)) (member : token ∈ before ∨ token = other)
    {position : Position} (here : token.range.contains position) : ¬ Precedes other token := by
  intro back
  obtain ⟨start, stop⟩ := Range.contains_iff.mp here
  have order : token.range.stop ≤ token.range.start := by
    rcases member with earlier | rfl
    · have forth : Precedes token other :=
        (List.pairwise_append.mp tiled.ordered).2.2 token earlier other List.mem_cons_self
      have upright := tiled.upright other (List.mem_append_right _ List.mem_cons_self)
      exact Position.le_trans forth (Position.le_trans upright back)
    · exact back
  exact Position.not_lt_of_le (Position.le_trans order start) stop

/-- A position lies in one token at most. -/
theorem filter_contains {tokens : List Token} (tiled : Tiled tokens) {token : Token}
    (member : token ∈ tokens) {position : Position} (here : token.range.contains position) :
    tokens.filter (·.range.contains position) = [token] := by
  obtain ⟨before, after, rfl⟩ := List.mem_iff_append.mp member
  obtain ⟨_, inner, across⟩ := List.pairwise_append.mp tiled.ordered
  have front : before.filter (·.range.contains position) = [] := by
    rw [List.filter_eq_nil_iff]
    intro other earlier
    have order := across other earlier token List.mem_cons_self
    simp [Range.contains_eq_false (order.stop_le here)]
  have back : after.filter (·.range.contains position) = [] := by
    rw [List.filter_eq_nil_iff]
    intro other later inside
    have order := (List.pairwise_cons.mp inner).1 other later
    exact Position.not_lt_of_le (order.stop_le inside) (Range.contains_iff.mp here).2
  simp [front, back, here]

theorem head_start_le {tokens : List Token} (tiled : Tiled tokens) {first token : Token}
    (head : tokens.head? = some first) (member : token ∈ tokens) :
    first.range.start ≤ token.range.start := by
  obtain ⟨rest, rfl⟩ := List.head?_eq_some_iff.mp head
  rcases List.mem_cons.mp member with rfl | later
  · exact .inr rfl
  · have upright := tiled.upright first List.mem_cons_self
    exact Position.le_trans upright ((List.pairwise_cons.mp tiled.ordered).1 token later)

theorem stop_le_getLast {tokens : List Token} (tiled : Tiled tokens) {last token : Token}
    (tail : tokens.getLast? = some last) (member : token ∈ tokens) :
    token.range.stop ≤ last.range.stop := by
  obtain ⟨front, rfl⟩ := List.getLast?_eq_some_iff.mp tail
  rcases List.mem_append.mp member with earlier | same
  · have upright := tiled.upright last (List.mem_append_right _ (List.mem_singleton_self _))
    have order : Precedes token last :=
      (List.pairwise_append.mp tiled.ordered).2.2 token earlier last (List.mem_singleton_self _)
    exact Position.le_trans order upright
  · rw [List.mem_singleton.mp same]
    exact .inr rfl

end Tiled

section Spans

variable {token : Token} {position : Position} (here : token.range.contains position)
include here

theorem Parser.rangeOf_contains_eq_false {tokens : List Token}
    (behind : ∀ other ∈ tokens, Precedes other token) (start : Position) :
    (rangeOf tokens start).contains position = false := by
  unfold rangeOf
  split
  · next first last _ found =>
    exact Range.contains_eq_false ((behind last (List.mem_of_getLast? found)).stop_le here)
  · exact Range.point_contains _ _

theorem Parser.rangeOf_stop_le {tokens : List Token} (filled : tokens ≠ [])
    (behind : ∀ other ∈ tokens, Precedes other token) (start : Position) :
    (rangeOf tokens start).stop ≤ position := by
  have last := (behind (tokens.getLast filled) (List.getLast_mem filled)).stop_le here
  simpa [rangeOf, List.head?_eq_some_head filled, List.getLast?_eq_some_getLast filled] using last

namespace Node

theorem ownSpan_contains_eq_false {node : Node} (behind : ∀ other ∈ node.tokens, Precedes other token) :
    node.ownSpan.any (·.contains position) = false := by
  unfold ownSpan
  split
  · next first last _ found =>
    exact Range.contains_eq_false ((behind last (List.mem_of_getLast? found)).stop_le here)
  · rfl

/-- The span of a node covers its tokens. -/
theorem covers_of_mem {node : Node} (tiled : Tiled node.tokens) (member : token ∈ node.tokens) :
    node.covers position := by
  obtain ⟨start, stop⟩ := Range.contains_iff.mp here
  have filled := List.ne_nil_of_mem member
  obtain ⟨first, head⟩ : ∃ first, node.tokens.head? = some first :=
    ⟨_, List.head?_eq_some_head filled⟩
  obtain ⟨last, tail⟩ : ∃ last, node.tokens.getLast? = some last :=
    ⟨_, List.getLast?_eq_some_getLast filled⟩
  have own : node.ownSpan = some ⟨first.range.start, last.range.stop⟩ := by
    rw [ownSpan, head, tail]
  have after : first.range.start ≤ position :=
    Position.le_trans (tiled.head_start_le head member) start
  have before : position < last.range.stop :=
    Position.lt_of_lt_of_le stop (tiled.stop_le_getLast tail member)
  have inside : Range.contains ⟨first.range.start, last.range.stop⟩ position :=
    Range.contains_iff.mpr ⟨after, before⟩
  cases node with
  | leaf other =>
    obtain rfl : token = other := by simpa [tokens] using member
    exact here
  | error message range skipped =>
    have wide : (range.cover ⟨first.range.start, last.range.stop⟩).contains position :=
      Range.contains_iff.mpr ⟨Position.le_trans Position.earlier_le after,
        Position.lt_of_lt_of_le before Position.le_later⟩
    simp only [covers, span, own]
    exact wide
  | _ =>
    simp only [covers, span, own]
    exact inside

/-- What is left of a failed construct, with its diagnostic in front of some place. -/
theorem error_covers_eq_false {message : String} {range : Range} {skipped : List Token}
    (behind : ∀ other ∈ skipped, Precedes other token) (outside : range.contains position = false)
    (reach : skipped ≠ [] → range.stop ≤ position) :
    (error message range skipped).covers position = false := by
  cases tail : skipped.getLast? with
  | none =>
    obtain rfl := List.getLast?_eq_none_iff.mp tail
    exact outside
  | some last =>
    have member := List.mem_of_getLast? tail
    have filled := List.ne_nil_of_mem member
    have own : (error message range skipped).ownSpan =
        some ⟨(skipped.head filled).range.start, last.range.stop⟩ := by
      rw [ownSpan, tokens, List.head?_eq_some_head filled, tail]
    simp only [covers, span, own]
    exact Range.contains_eq_false
      (Position.later_le (reach filled) ((behind last member).stop_le here))

end Node

/-- What is left of a failed construct does not reach over the tokens behind it, although it may
point at the first of them. -/
theorem Lost.covers_eq_false {all : List Token} {problem : Node} (lost : Lost all problem)
    (tiled : Tiled all) (member : token ∈ all)
    (behind : ∀ other ∈ problem.tokens, Precedes other token) : problem.covers position = false := by
  have solid {message : String} {used : List Token} {start : Position}
      (behind : ∀ other ∈ used, Precedes other token) :
      (Node.error message (Parser.rangeOf used start) used).covers position = false :=
    Node.error_covers_eq_false here behind (Parser.rangeOf_contains_eq_false here behind start)
      fun filled => Parser.rangeOf_stop_le here filled behind start
  cases lost with
  | missing => exact solid behind
  | unexpectedEnd => exact solid behind
  | unreadable => exact solid behind
  | tooDeep => exact solid behind
  | @nameless keyword form skipped next opens unnamed skips =>
    have first := behind keyword List.mem_cons_self
    have rest : ∀ other ∈ skipped, Precedes other token :=
      fun other inside => behind other (List.mem_cons_of_mem _ inside)
    refine Node.error_covers_eq_false here behind (Parser.rangeOf_contains_eq_false here rest _) ?_
    intro _
    cases skipped with
    | cons other more => exact Parser.rangeOf_stop_le here (by simp) rest _
    | nil =>
      -- Only here the diagnostic lies behind the tokens: at the start of the next one.
      obtain ⟨⟨before, after, rfl⟩, _, _⟩ := skips
      have later : next.range.start ≤ token.range.start := by
        rcases List.mem_append.mp member with early | late
        · exact absurd first (tiled.not_precedes_back (.inl early) here)
        · rcases List.mem_cons.mp late with rfl | late
          · exact absurd first (tiled.not_precedes_back (.inr rfl) here)
          · have tail := tiled.sublist ((List.sublist_cons_self keyword _).trans
              (List.sublist_append_right before _))
            exact tail.head_start_le rfl late
      exact Position.le_trans later (Range.contains_iff.mp here).1

namespace Node

/-- A part whose tokens precede a token does not reach over that token. -/
theorem covers_eq_false {all : List Token} {node : Node} (tiled : Tiled all) (member : token ∈ all)
    (lost : ∀ problem ∈ node.errors, Lost all problem)
    (behind : ∀ other ∈ node.tokens, Precedes other token) : node.covers position = false := by
  cases node with
  | leaf other =>
    exact Range.contains_eq_false ((behind other (List.mem_singleton_self _)).stop_le here)
  | error message range skipped =>
    exact (lost _ (by simp)).covers_eq_false here tiled member behind
  | _ => exact ownSpan_contains_eq_false here behind

/-- The first part around a position in a token is the one that holds the token. -/
theorem find?_covers {all : List Token} {node : Node} (inner : node.leaf? = none) (tiled : Tiled all)
    (sublist : node.tokens.Sublist all) (lost : ∀ problem ∈ node.errors, Lost all problem)
    (member : token ∈ node.tokens) :
    ∃ part, node.children.find? (·.covers position) = some part ∧ token ∈ part.tokens := by
  have parts := tokens_eq_flatMap_children inner
  rw [parts, List.mem_flatMap] at member
  obtain ⟨part, child, inside⟩ := member
  obtain ⟨before, after, split⟩ := List.mem_iff_append.mp child
  rw [parts, split, List.flatMap_append, List.flatMap_cons] at sublist
  refine ⟨part, List.find?_eq_some_iff_append.mpr ⟨?_, before, after, split, ?_⟩, inside⟩
  · refine covers_of_mem here (tiled.sublist (List.Sublist.trans ?_ sublist)) inside
    exact (List.sublist_append_left _ _).trans (List.sublist_append_right _ _)
  · intro earlier first
    have order := (tiled.sublist sublist).ordered
    have apart := (List.pairwise_append.mp order).2.2
    have outside : earlier.covers position = false := by
      apply covers_eq_false here tiled (sublist.subset (by simp [inside]))
      · intro problem wrong
        exact lost problem (errors_of_mem_children (split ▸ List.mem_append_left _ first) wrong)
      · intro other held
        exact apart other (List.mem_flatMap.mpr ⟨earlier, first, held⟩) token (by simp [inside])
    simp [outside]

end Node

end Spans

namespace Node

/-- Going down to a position ends at the token that holds it. -/
theorem descend_finds {all : List Token} (tiled : Tiled all) {token : Token} {position : Position}
    (here : token.range.contains position) {node : Node} (inner : node.leaf? = none)
    (sublist : node.tokens.Sublist all) (lost : ∀ problem ∈ node.errors, Lost all problem)
    (member : token ∈ node.tokens) (path : List Node) :
    (node.descend position path).map (·.token) = some token := by
  obtain ⟨part, first, inside⟩ := find?_covers here inner tiled sublist lost member
  fun_induction descend position path node generalizing part with
  | case1 path node found => simp [found] at first
  | case2 path node other found =>
    obtain rfl : leaf other = part := Option.some.inj (found.symm.trans first)
    obtain rfl : token = other := List.mem_singleton.mp inside
    rfl
  | case3 path node next notLeaf found shorter ih =>
    obtain rfl : next = part := Option.some.inj (found.symm.trans first)
    have child := List.mem_of_find?_eq_some found
    have bare : next.leaf? = none := by
      cases next with
      | leaf other => exact absurd rfl (notLeaf other)
      | _ => rfl
    have within := (tokens_sublist_of_mem_children child).trans sublist
    have lost' : ∀ problem ∈ next.errors, Lost all problem :=
      fun problem wrong => lost problem (errors_of_mem_children child wrong)
    obtain ⟨deeper, found', held⟩ := find?_covers here bare tiled within lost' inside
    exact ih bare within lost' inside deeper found' held

end Node

/-- The path of a hit leads down the tree, from part to part, to its token. -/
structure Hit.LeadsFrom (hit : Hit) (root : Node) : Prop where
  start : hit.path.head? = some root
  steps : hit.path.IsChain fun outer inner => inner ∈ outer.children
  stop : ∃ node, hit.path.getLast? = some node ∧ .leaf hit.token ∈ node.children

namespace Node

/-- What is found at a position lies there, and the way down to it is kept. -/
theorem descend_leads {position : Position} {path : List Node} {node : Node} {hit : Hit}
    (found : node.descend position path = some hit) :
    hit.token.range.contains position ∧ hit.token ∈ node.tokens ∧
      ∃ more, hit.path = path ++ more ∧ Hit.LeadsFrom ⟨hit.token, more⟩ node := by
  fun_induction descend position path node with
  | case1 path node none => cases found
  | case2 path node token first =>
    cases found
    have child := List.mem_of_find?_eq_some first
    have covers := List.find?_some first
    have inside := (tokens_sublist_of_mem_children child).subset (List.mem_singleton_self token)
    exact ⟨covers, inside, [node], rfl, rfl, .singleton _, node, rfl, child⟩
  | case3 path node part notLeaf first shorter ih =>
    obtain ⟨covers, inside, more, way, start, steps, stop⟩ := ih found
    obtain ⟨rest, rfl⟩ := List.head?_eq_some_iff.mp start
    have child := List.mem_of_find?_eq_some first
    refine ⟨covers, (tokens_sublist_of_mem_children child).subset inside, node :: part :: rest,
      by simp [way], rfl, ?_, ?_⟩
    · exact .cons_cons child steps
    · simpa using stop

theorem descend_eq_none {position : Position} {node : Node}
    (outside : node.children.find? (·.covers position) = none) (path : List Node) :
    node.descend position path = none := by
  rw [descend]
  split
  · rfl
  · next found => cases outside.symm.trans found
  · next found => cases outside.symm.trans found

/-- In a program of known form the search is not stopped. -/
theorem locate_program {statements : List Node} (known : ∀ node ∈ statements, node.isKnown)
    (eof : Token) (position : Position) :
    (program statements eof).locate position = .ok ((program statements eof).descend position []) := by
  have parts : ∀ part ∈ (program statements eof).children, part.isKnown := by
    simpa [children, isKnown, or_imp, forall_and] using known
  have same : (program statements eof).children.find?
      (fun part => !part.isKnown || part.covers position) =
        (program statements eof).children.find? (·.covers position) :=
    List.find?_congr fun part member => by simp [parts part member]
  unfold locate
  simp only [same]
  cases first : (program statements eof).children.find? (·.covers position) with
  | none => rw [descend_eq_none first]
  | some part => simp [asking, parts part (List.mem_of_find?_eq_some first)]

end Node

/-- Going down the tree to a position finds what a scan of all tokens finds: the one token there, if
there is any. -/
theorem tokenAt_eq_scan (source : String) (blockScoping : Bool) :
    ∃ model, analyze source blockScoping = .ok model ∧ ∀ position, ∃ hit,
      model.locate position = .ok hit ∧ model.tokenAt position = .ok (hit.map (·.token)) ∧
      model.tokens.filter (·.range.contains position) = (hit.map (·.token)).toList ∧
      ∀ found ∈ hit, found.LeadsFrom model.root := by
  refine ⟨_, analyze_eq source blockScoping, fun position => ?_⟩
  have tiled := tokenize_tiled source
  have covers := parseTokens_covers_text source
  have lost := parseTokens_lost source
  obtain ⟨statements, eof, tree, derived⟩ := parseTokens_statements source
  have located := Node.locate_program derived.known eof position
  simp only [tree] at covers lost ⊢
  refine ⟨_, located, by simp only [Model.tokenAt, Model.locate, located]; rfl, ?_, ?_⟩
  · by_cases held : ∃ token ∈ tokenize source, token.range.contains position
    · obtain ⟨token, member, here⟩ := held
      have kept : token ∈ (Node.program statements eof).tokens.filter (·.kind ≠ .endOfLine) := by
        rw [covers.others]
        exact List.mem_filter.mpr ⟨member, by simpa using kind_ne_of_contains member here⟩
      rw [tiled.filter_contains member here, Node.descend_finds tiled here rfl covers.sublist lost
        (List.mem_of_mem_filter kept)]
      rfl
    · have missed : (Node.program statements eof).descend position [] = none := by
        rw [Option.eq_none_iff_forall_ne_some]
        intro hit found
        obtain ⟨here, inside, _⟩ := Node.descend_leads found
        exact held ⟨hit.token, covers.sublist.subset inside, here⟩
      rw [missed, List.filter_eq_nil_iff.mpr fun token member here => held ⟨token, member, here⟩]
      rfl
  · intro hit found
    obtain ⟨_, _, more, path, leads⟩ := Node.descend_leads found
    rw [List.nil_append] at path
    rwa [← path] at leads

/-- The error about the missing name reaches up to the next word, and still the word is found. -/
theorem tokenAt_eq_scan_behind_error : ∃ model hit, analyze "let  if x\nend" true = .ok model ∧
    model.locate ⟨0, 5⟩ = .ok (some hit) ∧ hit.token.text = "if" ∧ hit.LeadsFrom model.root ∧
    model.tokens.filter (·.range.contains ⟨0, 5⟩) = [hit.token] := by
  obtain ⟨model, analyzed, all⟩ := tokenAt_eq_scan "let  if x\nend" true
  obtain ⟨hit, located, found, scan, leads⟩ := all ⟨0, 5⟩
  have there : ((analyze "let  if x\nend" true).bind (·.tokenAt ⟨0, 5⟩)).map (·.map (·.text)) =
      .ok (some "if") := by decide +kernel
  rw [analyzed] at there
  cases hit with
  | none => simp [found, Except.bind, Except.map] at there
  | some hit =>
    exact ⟨model, hit, analyzed, located, by simpa [found, Except.bind, Except.map] using there,
      leads hit rfl, scan⟩

end LineScript
