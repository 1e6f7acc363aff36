import Parlance.Proofs.Agreement
import Parlance.Proofs.SearchInvariant
import Parlance.Proofs.WellMade

/-!
# `Proofs.RealParse` — every derivation is a real parse

A search that takes the best derivations first builds spans out of neighbours: a derivation with one to its right or
to its left, with the token on either side, or alone. What waits on the agenda was made for a span that its rule
covers, and when it is its turn its children are older than it is. So the parses of both searches are well made at
every moment, and so are those whose predictions have been executed.

## Contents
- **Neighbours.** The applications of `combinations` and of rules of tokens are proper.
- **Best first.** `shapeFacts`, what a search keeps, and `wellMade_moments`.
- **Derivations.** `Arena.RealParse` and `Parser.realParse_of_mem_arenas`.
-/

namespace Parlance

open Progress

variable {α : Type} [Score α]

namespace BestFirst

variable {index : SiblingIndex} {task : Task α} {a : Application}

/-! ## Neighbours -/

variable {p : Progress α} {rules : List Rule} {i : Nat} {k : Shape}

omit [Score α] in
/-- Rules with the same symbols, applied to children that lie on the span under these. -/
theorem covers_of_mem_applications {l : List Rule} {first last : Nat} {children : List (List Nat)}
    (symbols : List String) (ha : a ∈ applications task l first last children)
    (hl : ∀ r ∈ l, r ∈ rules ∧ r.rhs = symbols)
    (hchildren : ∀ w ∈ children, ∃ kids, p.Shaped w kids ∧ LaidOut task.ex first symbols kids last) :
    a.Covers task p rules first last := by
  obtain ⟨r, hr, ha⟩ := List.mem_flatMap.mp ha
  obtain ⟨w, hw, rfl⟩ := List.mem_map.mp ha
  obtain ⟨hr, hbuild⟩ := List.mem_filter.mp hr
  obtain ⟨hrule, hrhs⟩ := hl r hr
  refine ⟨hrule, hbuild, rfl, rfl, ?_⟩
  show ∃ kids, p.Shaped w kids ∧ LaidOut task.ex first r.rhs kids last
  rw [hrhs]
  exact hchildren w hw

/-- The phrase of one token is the token. -/
theorem phrase_token {ex : Example} {i : Nat} (h : i < ex.length) : ex.info.phrase i (i + 1) = ex.token i := by
  rw [phrase_eq, slice_token h]
  exact String.intercalate_singleton

/-- To the right: a derivation of any length, or the next token. -/
theorem covers_of_mem_rightward (h : p.WellMade task.ex) (hindex : index.Indexes rules)
    (hk : p.arena.shapes[i]? = some k) (ha : a ∈ rightward index task p i) :
    ∃ last, k.first < last ∧ last ≤ task.length ∧ a.Covers task p rules k.first last := by
  have hproper := h.arena i k hk
  have hlt := hproper.lt
  have hshape : (p.arena.get i).shape = k := Arena.shape_get hk
  have halone := h.laidOut_part .nil hk .nil
  unfold rightward at ha
  dsimp only at ha
  rw [show (p.arena.get i).cat = k.cat from congrArg Shape.cat hshape,
    show (p.arena.get i).first = k.first from congrArg Shape.first hshape,
    show (p.arena.get i).last = k.last from congrArg Shape.last hshape] at ha
  cases hget : index.rightOf.get? k.cat with
  | none => rw [hget] at ha; cases ha
  | some siblings =>
    rw [hget] at ha
    obtain rfl : SiblingIndex.paired index.rightOf k.cat = siblings := by
      rw [SiblingIndex.paired, hget, Option.getD_some]
    obtain ⟨kids, hkids, hlaid⟩ := halone
    rcases List.mem_append.mp ha with ha | ha
    · obtain ⟨n, hn, ha⟩ := List.mem_flatMap.mp ha
      obtain ⟨⟨cat, l⟩, hentry, ha⟩ := List.mem_flatMap.mp ha
      rw [List.mem_range] at hn
      refine ⟨k.last + n + 1, by omega, by omega, ?_⟩
      refine covers_of_mem_applications [k.cat, cat] ha (fun r hr => ?_) fun w hw => ?_
      · exact hindex.rhs_of_right hproper.isCat (SiblingIndex.mem_listed hentry hr)
      · obtain ⟨c, hc, rfl⟩ := List.mem_map.mp hw
        exact h.laidOut_concat hkids hlaid (Chart.lists_of_mem_get hc)
    · split at ha
      case isTrue hend =>
        have hend : k.last < task.ex.length := hend
        refine ⟨k.last + 1, by omega, hend, ?_⟩
        refine covers_of_mem_applications [k.cat, task.ex.token k.last] ha (fun r hr => ?_) fun w hw => ?_
        · have hr : r ∈ SiblingIndex.found (SiblingIndex.paired index.rightOf k.cat)
            (task.ex.info.phrase k.last (k.last + 1)) := hr
          rw [phrase_token hend, hindex.rightFound _ _ hproper.isCat] at hr
          simpa using List.mem_filter.mp hr
        · obtain rfl := List.mem_singleton.mp hw
          exact ⟨kids, hkids, .token hlaid hend⟩
      case isFalse => cases ha

/-- To the left: a derivation of any length, or the token before it. -/
theorem covers_of_mem_leftward (h : p.WellMade task.ex) (hindex : index.Indexes rules)
    (hk : p.arena.shapes[i]? = some k) (ha : a ∈ leftward index task p i) :
    ∃ first, first < k.last ∧ a.Covers task p rules first k.last := by
  have hproper := h.arena i k hk
  have hlt := hproper.lt
  have hle := hproper.le
  have hshape : (p.arena.get i).shape = k := Arena.shape_get hk
  unfold leftward at ha
  dsimp only at ha
  rw [show (p.arena.get i).cat = k.cat from congrArg Shape.cat hshape,
    show (p.arena.get i).first = k.first from congrArg Shape.first hshape,
    show (p.arena.get i).last = k.last from congrArg Shape.last hshape] at ha
  cases hget : index.leftOf.get? k.cat with
  | none => rw [hget] at ha; cases ha
  | some siblings =>
    rw [hget] at ha
    obtain rfl : SiblingIndex.paired index.leftOf k.cat = siblings := by
      rw [SiblingIndex.paired, hget, Option.getD_some]
    rcases List.mem_append.mp ha with ha | ha
    · obtain ⟨first, hfirst, ha⟩ := List.mem_flatMap.mp ha
      obtain ⟨⟨cat, l⟩, hentry, ha⟩ := List.mem_flatMap.mp ha
      rw [List.mem_reverse, List.mem_range] at hfirst
      refine ⟨first, by omega, ?_⟩
      refine covers_of_mem_applications [cat, k.cat] ha (fun r hr => ?_) fun w hw => ?_
      · exact hindex.rhs_of_left hproper.isCat (SiblingIndex.mem_listed hentry hr)
      · obtain ⟨c, hc, rfl⟩ := List.mem_map.mp hw
        obtain ⟨kids, hkids, hlaid⟩ := h.laidOut_concat .nil .nil (Chart.lists_of_mem_get hc)
        exact h.laidOut_part hkids hk hlaid
    · split at ha
      case isTrue hstart =>
        obtain ⟨first, hfirst⟩ := Nat.exists_eq_add_one.mpr hstart
        have htoken : first < task.ex.length := by omega
        have hlaid : LaidOut task.ex first [task.ex.token first] [] (first + 1) := .token .nil htoken
        rw [hfirst, Nat.add_sub_cancel, phrase_token htoken] at ha
        refine ⟨first, by omega, ?_⟩
        refine covers_of_mem_applications [task.ex.token first, k.cat] ha (fun r hr => ?_) fun w hw => ?_
        · have hr : r ∈ SiblingIndex.found (SiblingIndex.paired index.leftOf k.cat) (task.ex.token first) := hr
          rw [hindex.leftFound _ _ hproper.isCat] at hr
          simpa using List.mem_filter.mp hr
        · obtain rfl := List.mem_singleton.mp hw
          rw [← hfirst] at hlaid
          exact h.laidOut_part .nil hk hlaid
      case isFalse => cases ha

/-- **What combines a derivation with those next to it** is proper. -/
theorem proper_of_mem_combinations (h : p.WellMade task.ex) (hindex : index.Indexes rules) (hs : Suits rules task.ex)
    (hk : p.arena.shapes[i]? = some k) (ha : a ∈ combinations index task p i) :
    a.shape.Proper task.ex p.arena.shapes := by
  have hproper := h.arena i k hk
  have hshape : (p.arena.get i).shape = k := Arena.shape_get hk
  rcases List.mem_append.mp ha with ha | ha
  · rcases List.mem_append.mp ha with ha | ha
    · obtain ⟨last, hlt, hle, hcovers⟩ := covers_of_mem_rightward h hindex hk ha
      exact hcovers.proper hs hlt hle
    · obtain ⟨first, hlt, hcovers⟩ := covers_of_mem_leftward h hindex hk ha
      exact hcovers.proper hs hlt hproper.le
  · have ha : a ∈ applications task (SiblingIndex.found index.unary (p.arena.get i).shape.cat)
      (p.arena.get i).shape.first (p.arena.get i).shape.last [[i]] := ha
    rw [hshape, hindex.unary _ hproper.isCat] at ha
    have hcovers : a.Covers task p rules k.first k.last := by
      refine covers_of_mem_applications [k.cat] ha (fun r hr => ?_) fun w hw => ?_
      · simpa using List.mem_filter.mp hr
      · obtain rfl := List.mem_singleton.mp hw
        exact h.laidOut_part .nil hk .nil
    exact hcovers.proper hs hproper.lt hproper.le

omit [Score α] in
/-- The rules that say the phrase of a span are proper. -/
theorem proper_of_mem_literalApplications (hindex : index.Indexes rules) (hs : Suits rules task.ex)
    (ha : a ∈ literalApplications index task) (before : List Shape) : a.shape.Proper task.ex before := by
  obtain ⟨⟨first, last⟩, hspan, ha⟩ := List.mem_flatMap.mp ha
  obtain ⟨hlt, hle⟩ := mem_spansByStart.mp hspan
  obtain ⟨r, hr, ha⟩ := List.mem_flatMap.mp ha
  obtain ⟨w, hw, rfl⟩ := List.mem_map.mp ha
  obtain rfl := List.mem_singleton.mp hw
  obtain ⟨hr, hbuild⟩ := List.mem_filter.mp hr
  have hr : r ∈ SiblingIndex.found index.literal (task.ex.info.phrase first last) := hr
  rw [hindex.literal, List.mem_filter, decide_eq_true_eq] at hr
  obtain ⟨hrule, hlexical, hphrase⟩ := hr
  exact {
    lt := hlt
    le := hle
    isCat := hs.cats _ hrule
    root := fun hroot => first_last_of_canBuild hbuild hroot
    parse := fun _ => ⟨rfl, [], .nil, Shape.parses_of_lexical hlexical hphrase⟩ }

/-! ## Best first -/

/-- A derivation is added if there is room in its cell. -/
theorem follows_addToBoundedChart {ex : Example} (h : p.WellMade ex) {d : Derivation α}
    (hd : d.shape.Proper ex p.arena.shapes) :
    Follows ex p (p.addToBoundedChart d).2 ∧
      ∀ i, (p.addToBoundedChart d).1 = some i → (p.addToBoundedChart d).2.arena.shapes[i]? = some d.shape := by
  have hcount : p.count.WellMade ex := h.congr rfl fun _ _ _ _ hi => hi
  unfold addToBoundedChart
  dsimp only
  split
  case isTrue =>
    refine ⟨⟨hcount.congr rfl fun _ _ _ _ hi => hi, List.prefix_rfl⟩, fun i hi => ?_⟩
    cases hi
  case isFalse =>
    have hshapes : (p.count.insert d).arena.shapes = p.arena.shapes ++ [d.shape] := Arena.shapes_push _ _
    refine ⟨⟨(hcount.insert hd).congr rfl fun _ _ _ _ hi => hi.of_sortCell, ?_⟩, fun i hi => ?_⟩
    · show p.arena.shapes <+: (p.count.insert d).arena.shapes
      rw [hshapes]
      exact List.prefix_append _ _
    · obtain rfl := Option.some.inj hi
      show (p.count.insert d).arena.shapes[p.arena.size]? = some d.shape
      rw [hshapes, ← Arena.length_shapes, List.getElem?_concat_length]

/-- **What a search keeps about shapes.** Whatever waits is a proper parse, and so is whatever a rule makes that waits. -/
def shapeFacts (ex : Example) : Facts α where
  parse p := p.WellMade ex
  waiting arena d := d.shape.Proper ex arena.shapes
  applied arena a := a.shape.Proper ex arena.shapes

theorem kept_shapeFacts (hindex : index.Indexes rules) (hs : Suits rules task.ex) :
    (shapeFacts task.ex).Kept index task where
  start := BottomUp.wellMade_start task task.ex
  count harena hcells h := h.congr (by rw [harena]) fun _ _ _ _ hi => hi.of_cells hcells
  terminal d hd p _ := by
    show (p.rated task d).shape.Proper task.ex p.arena.shapes
    rw [shape_rated]
    exact BottomUp.proper_terminal hd _
  literal a ha arena := proper_of_mem_literalApplications hindex hs ha arena.shapes
  make {p a} _ ha candidate := by
    show (p.rated task (p.make task a candidate).1).shape.Proper task.ex p.arena.shapes
    rw [shape_rated]
    exact ha
  add h hd := (follows_addToBoundedChart h hd).1.wellMade
  combine {p d i q} h hd hadd a ha := by
    obtain ⟨hfollows, hnew⟩ := follows_addToBoundedChart h hd
    rw [hadd] at hfollows hnew
    exact proper_of_mem_combinations hfollows.wellMade hindex hs (hnew i rfl) ha
  waits {arena d} e h := by
    refine Shape.Proper.mono h ?_
    rw [Arena.shapes_push]
    exact List.prefix_append _ _
  applies {arena a} e h := by
    refine Shape.Proper.mono h ?_
    rw [Arena.shapes_push]
    exact List.prefix_append _ _

end BestFirst

/-- Computing scores anew leaves the shapes alone. -/
theorem Arena.shapes_rescore (weights : Weights α) (i : Nat) (arena : Arena α) :
    (arena.rescore weights i).1.shapes = arena.shapes := by
  induction i using Nat.strongRecOn generalizing arena with
  | ind i ih =>
    have hall : ∀ (l : List Nat) (arena : Arena α) (total : α),
        (arena.rescoreAll weights i total l).1.shapes = arena.shapes := by
      intro l
      induction l with
      | nil =>
        intro arena total
        rw [rescoreAll]
      | cons c l ihl =>
        intro arena total
        rw [rescoreAll]
        split
        case isTrue hc => exact (ihl _ _).trans (ih c hc arena)
        case isFalse => exact ihl _ _
    rw [rescore]
    have hscored := hall (arena.get i).children arena (weights.dot (arena.get i).features)
    refine (shapes_modify _ i ?_).trans hscored
    exact fun d => rfl

namespace BestFirst

variable {options : Options α} {index : SiblingIndex} {task : Task α} {ex : Example} {rules : List Rule}
  {p : Progress α}

theorem wellMade_rerank (h : p.WellMade ex) : (rerank task p).WellMade ex := by
  have hshapes : (rerank task p).arena.shapes = p.arena.shapes :=
    Arena.shapes_foldl (fun arena i => arena.shapes_rescore task.weights i) p.arena p.roots
  exact h.congr hshapes fun _ _ _ _ hi => hi.of_sortCell

/-- **Every moment of a search that takes the best derivations first is well made**, whatever the limits and the beam
are, and however items are drawn. -/
theorem wellMade_moments (options : Options α) (hindex : index.Indexes rules) (hs : Suits rules task.ex) (fuel : Nat) :
    ∀ q ∈ moments options index task fuel, WellMade task.ex q := by
  intro q hq
  obtain ⟨s, hs', rfl | rfl⟩ := exists_state_of_mem_moments hq
  · exact ((kept_shapeFacts hindex hs).meets s hs').parse
  · exact wellMade_rerank ((kept_shapeFacts hindex hs).meets s hs').parse

end BestFirst

/-! ## Derivations -/

namespace Arena

/-- **A derivation that is a real parse**, with its number. Its rule makes its category and takes derivations that
were made before it. These have the categories of the rule in order, and lie in its span one behind the other. With
their phrases in place of the categories, the rule says the phrase of the span. A root covers the whole text. -/
structure RealParse (arena : Arena α) (ex : Example) (i : Nat) (d : Derivation α) : Prop where
  cat : d.cat = d.rule.lhs
  older : ∀ c ∈ d.children, c < i
  cats : d.children.map (fun c => (arena.get c).cat) = d.rule.rhs.filter isCat
  ordered : d.children.Pairwise fun c c' => (arena.get c).last ≤ (arena.get c').first
  inside : ∀ c ∈ d.children,
    d.first ≤ (arena.get c).first ∧ (arena.get c).first < (arena.get c).last ∧ (arena.get c).last ≤ d.last
  text : " ".intercalate (written d.rule.rhs
      (d.children.map fun c => ex.info.phrase (arena.get c).first (arena.get c).last)) =
    ex.info.phrase d.first d.last
  span : d.first < d.last ∧ d.last ≤ ex.length
  root : d.cat = rootCat → d.first = 0 ∧ d.last = ex.length

/-- The shapes of the children are those of older derivations. -/
theorem older_of_shapes {arena : Arena α} {i : Nat} {children : List Nat} {kids : List Shape}
    (h : List.Forall₂ (fun c k => (arena.shapes.take i)[c]? = some k) children kids) :
    (∀ c ∈ children, c < i) ∧ children.map (fun c => (arena.get c).shape) = kids := by
  induction h with
  | nil => exact ⟨fun c hc => absurd hc List.not_mem_nil, rfl⟩
  | @cons c k children kids hc _ ih =>
    obtain ⟨hlt, hshapes⟩ := ih
    rw [List.getElem?_take] at hc
    split at hc
    case isTrue hi =>
      refine ⟨fun c' hc' => ?_, ?_⟩
      · rcases List.mem_cons.mp hc' with rfl | hc'
        · exact hi
        · exact hlt c' hc'
      · rw [List.map_cons, hshapes, shape_get hc]
    case isFalse => cases hc

/-- A derivation with a proper shape is a real parse, if it has a rule. -/
theorem realParse_of_proper {arena : Arena α} {ex : Example} {i : Nat} {d : Derivation α}
    (h : d.shape.Proper ex (arena.shapes.take i)) (hrule : d.rule.isNull = false) : arena.RealParse ex i d := by
  obtain ⟨hcat, kids, hkids, hparses⟩ := h.parse hrule
  obtain ⟨holder, rfl⟩ := older_of_shapes hkids
  obtain ⟨hcats, hordered, hinside, htext⟩ := hparses
  rw [List.map_map] at hcats htext
  exact {
    cat := hcat
    older := holder
    cats := hcats
    ordered := List.pairwise_map.mp hordered
    inside := fun c hc => hinside _ (List.mem_map_of_mem hc)
    text := htext
    span := ⟨h.lt, h.le⟩
    root := h.root }

end Arena

theorem shapes_executePredictions (executor : Executor) (evaluator : ValueEvaluator α) (target : Option Value)
    (arena : Arena α) (l : List Nat) :
    (executePredictions executor evaluator target arena l).shapes = arena.shapes := by
  refine Arena.shapes_foldl (fun arena i => Arena.shapes_modify arena i fun d => ?_) arena l
  have hexecute : (d.execute executor).shape = d.shape := by
    unfold Derivation.execute
    split <;> rfl
  unfold executePrediction
  split
  · have hset : ∀ (d : Derivation α) (c : α), (d.setCompatibility c).shape = d.shape := by
      intro d c
      unfold Derivation.setCompatibility
      split <;> rfl
    exact (hset _ _).trans hexecute
  · exact hexecute

theorem shapes_setProbabilities (arena : Arena α) (l : List Nat) :
    (setProbabilities arena l).shapes = arena.shapes := by
  unfold setProbabilities
  refine Arena.shapes_foldl (fun arena pair => ?_) arena _
  exact Arena.shapes_modify arena pair.1 fun _ => rfl

namespace Parser

variable {rules : List Rule} {options : ParserOptions α} {ctx : SemContext} {executor : Executor}
  {extractor : FeatureExtractor α} {evaluator : ValueEvaluator α} {parser : Parser α}

/-- **Every moment of a parse is well made.** -/
theorem wellMade_moments (hparser : Parser.ofRules rules options ctx executor extractor evaluator = .ok parser)
    {ex : Example} (hs : Suits rules ex) (weights : Weights α) : ∀ p ∈ parser.moments weights ex, p.WellMade ex := by
  intro p hp
  have hs : Suits rules (parser.task weights ex).ex := hs
  obtain ⟨hsort, hoptions, htrie, -⟩ := ofRules_eq_ok hparser
  unfold moments at hp
  cases hkind : parser.options.kind with
  | bottomUp =>
    rw [hkind, htrie] at hp
    exact BottomUp.wellMade_moments hs hsort p hp
  | bestFirst search =>
    rw [hkind] at hp
    obtain ⟨unaries, coarse, index, -, hindex, rfl⟩ := ofRules_bestFirst_eq_ok (hoptions ▸ hkind) hparser
    obtain ⟨-, hindexes⟩ := SiblingIndex.indexes_ofRules hindex
    exact BestFirst.wellMade_moments search hindexes hs _ p hp

/-- **Every derivation is a real parse.** Whatever the kind of search, the options and the weights are: in every state
that parsing a text goes through, whether it succeeds or not, each derivation with a rule is a real parse, if the
left-hand sides of the rules are categories and no token of the text is a category that a rule takes. -/
theorem realParse_of_mem_arenas (hparser : Parser.ofRules rules options ctx executor extractor evaluator = .ok parser)
    (hcat : ∀ r ∈ rules, isCat r.lhs = true) {ex : Example}
    (htokens : ∀ r ∈ rules, ∀ t ∈ r.rhs, t ∈ ex.info.tokens → isCat t = false) {weights : Weights α} {learning : Bool}
    {arena : Arena α} (harena : arena ∈ parser.arenas weights ex learning) {i : Nat} {d : Derivation α}
    (hd : arena.get? i = some d) (hrule : d.rule.isNull = false) : arena.RealParse ex i d := by
  have hmade := wellMade_moments hparser (⟨hcat, htokens⟩ : Suits rules ex) weights
  -- the predictions are executed without a change of any shape
  obtain ⟨p, hp, hshapes⟩ : ∃ p ∈ parser.moments weights ex, arena.shapes = p.arena.shapes := by
    rcases List.mem_append.mp harena with harena | harena
    · obtain ⟨p, hp, rfl⟩ := List.mem_map.mp harena
      exact ⟨p, hp, rfl⟩
    · obtain ⟨r, hr, harena⟩ := mem_andThen.mp harena
      obtain rfl := List.mem_singleton.mp harena
      obtain ⟨p, hp, hr⟩ := bind_eq_ok.mp hr
      obtain rfl := Except.ok.inj hr
      refine ⟨p, mem_moments hp, ?_⟩
      exact (shapes_setProbabilities _ _).trans (shapes_executePredictions _ _ _ _ _)
  have hi : arena.shapes[i]? = some d.shape := by
    rw [Arena.getElem?_shapes, hd]
    rfl
  refine Arena.realParse_of_proper ?_ hrule
  rw [hshapes] at hi ⊢
  exact (hmade p hp).arena i _ hi

/-- A small beam with noise, a limit and a coarse parse. -/
def sampleOptions : ParserOptions Float := { ParserOptions.standard with
  beamSize := 1, noise := 1, limit := some 100, coarse := true }

/-- What a parse of the sum of two terms says about the derivation with a number: its category, and whether it has no
rule. -/
def sampleDerivation (i : Nat) : Option (String × Bool) := do
  let parser ← (Parser.ofRules sampleRules sampleOptions {} .matching).toOption
  let p ← (parser.infer Weights.new sampleText).toOption
  (p.arena.get? i).map fun d => (d.cat, d.rule.isNull)

theorem exists_of_sampleDerivation {i : Nat} {cat : String} {null : Bool} (h : sampleDerivation i = some (cat, null)) :
    ∃ parser p d, Parser.ofRules sampleRules sampleOptions {} .matching = .ok parser ∧
      parser.infer Weights.new sampleText = .ok p ∧ p.arena.get? i = some d ∧ d.cat = cat ∧ d.rule.isNull = null := by
  unfold sampleDerivation at h
  cases hparser : Parser.ofRules sampleRules sampleOptions {} .matching with
  | error e =>
    rw [hparser] at h
    cases h
  | ok parser =>
    rw [hparser] at h
    cases hp : parser.infer Weights.new sampleText with
    | error e => simp [Except.toOption, hp] at h
    | ok p =>
      simp only [Except.toOption, hp, Option.bind_eq_bind, Option.bind_some] at h
      obtain ⟨d, hd, hsays⟩ := Option.map_eq_some_iff.mp h
      obtain ⟨hcat, hnull⟩ := Prod.mk.inj hsays
      exact ⟨parser, p, d, rfl, hp, hd, hcat, hnull⟩

/-- The sum of two terms is a root that is a real parse. -/
theorem realParse_of_mem_arenas_sample : ∃ (parser : Parser Float) (arena : Arena Float) (d : Derivation Float),
    Parser.ofRules sampleRules sampleOptions {} .matching = .ok parser ∧
      arena ∈ parser.arenas Weights.new sampleText true ∧ arena.get? 13 = some d ∧ d.cat = rootCat ∧
      arena.RealParse sampleText 13 d := by
  obtain ⟨parser, p, d, hparser, hp, hd, hcat, hnull⟩ :=
    exists_of_sampleDerivation (show sampleDerivation 13 = some (rootCat, false) by decide +kernel)
  have harena : p.arena ∈ parser.arenas Weights.new sampleText true :=
    List.mem_append_left _ (List.mem_map_of_mem (mem_moments hp))
  exact ⟨parser, p.arena, d, hparser, harena, hd, hcat,
    realParse_of_mem_arenas hparser (by decide) (by decide) harena hd hnull⟩

end Parser

end Parlance
