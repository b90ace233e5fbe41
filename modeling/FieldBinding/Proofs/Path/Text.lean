import FieldBinding.Proofs.Path.Spelling
import FieldBinding.Proofs.Path.WellFormed

/-!
# The text of a path

A path is read from the pieces of a text between slashes, and is written as these pieces with slashes in front of
them.  So its text is the text that it was read from, without the slashes that separate nothing.

Reading the text again gives the path back, with one exception.  The first piece of a text stands for the root if
it is brackets without a name, and an empty first piece keeps such brackets from the front; but the empty piece is
not written.  `Path.Unambiguous` excludes that.

Main results:

* `Path.parse_text` — the text of a path is read as what its pieces stand for.
* `Path.parse_text_iff` — a path is given back by its text exactly if its segments are legible and it is
  unambiguous.
* `Path.parse_normalForm` — every text has a normal form, and which texts do not lead back to their path.
-/

namespace FieldBinding

/-! ## Pieces between slashes -/

section Pieces

variable {c : Char} {pieces : List (List Char)}

/-- Separators between pieces and one in front are a separator in front of each piece. -/
theorem cons_intercalate (nonempty : pieces ≠ []) :
    c :: [c].intercalate pieces = pieces.flatMap (c :: ·) := by
  induction pieces with
  | nil => exact absurd rfl nonempty
  | cons piece rest ih =>
    obtain _ | ⟨next, others⟩ := rest
    · simp
    · rw [List.intercalate_cons_cons, List.flatMap_cons, ← ih (by simp)]
      simp

/-- No piece holds the separator. -/
theorem not_mem_of_mem_splitOn {text piece : List Char} (h : piece ∈ text.splitOn c) : c ∉ piece := by
  induction text generalizing piece with
  | nil => simp_all [List.splitOn_eq_splitOnP]
  | cons d rest ih =>
    rw [List.splitOn_cons_eq_if_modifyHead] at h
    split at h
    · rcases List.mem_cons.1 h with rfl | h
      · exact List.not_mem_nil
      · exact ih h
    · next other =>
      obtain ⟨first, others, pieces⟩ := List.exists_cons_of_ne_nil (List.splitOn_ne_nil c rest)
      rw [pieces, List.modifyHead_cons] at h
      rcases List.mem_cons.1 h with rfl | h
      · have absent : c ∉ first := ih (by rw [pieces]; exact List.mem_cons_self)
        have ne : c ≠ d := fun same => other (by simp [same])
        simp [ne, absent]
      · exact ih (by rw [pieces]; exact List.mem_cons_of_mem _ h)

end Pieces

/-! ## Legible segments -/

/-- A segment that can be read again where it stands between slashes. -/
structure Segment.Legible (s : Segment) : Prop where
  readable : s.Readable
  single : '/' ∉ s.expression.toList

theorem Segment.legible_ofPiece (isRoot : Bool) {piece : List Char} (single : '/' ∉ piece) :
    (Segment.ofPiece isRoot piece).Legible :=
  ⟨Segment.readable_ofPiece isRoot piece, by rwa [Segment.expression_ofPiece]⟩

theorem Segment.legible_root : Segment.root.Legible :=
  ⟨rfl, List.not_mem_nil⟩

/-- Brackets leave a text, also where they have no name. -/
theorem Segment.expression_ne_nil {s : Segment} (collection : s.isCollection) : s.expression.toList ≠ [] := by
  obtain ⟨b, bracket⟩ := Option.isSome_iff_exists.1 collection
  simp [Segment.expression, String.toList_append, Selector.toList_text bracket]

namespace Path

/-- The text between the slashes of a path, in order. -/
def pieces (p : Path) : List (List Char) :=
  (p.segments.map (·.expression.toList)).filter (!·.isEmpty)

/-- The segments that the pieces below the root stand for. -/
def below (pieces : List (List Char)) : List Segment :=
  (pieces.filter (!·.isEmpty)).map (Segment.ofPiece false)

/-- A path with legible segments, in which the root, and only the root, may have no text. -/
structure Spelled (p : Path) : Prop where
  head : p.head = .root ∨ p.head.Anonymous ∧ p.head.isRoot = true
  head_legible : p.head.Legible
  tail : ∀ s ∈ p.tail, s.Legible ∧ s.isRoot = false ∧ s.expression.toList ≠ []

/-- Brackets without a name do not stand directly below a root without brackets. -/
def Unambiguous (p : Path) : Prop :=
  p.head = .root → ∀ s ∈ p.tail.head?, ¬s.Anonymous

/-! ## Reading pieces -/

theorem ofPieces_of_anonymous {first : List Char} (anonymous : Segment.AnonymousPiece first)
    (others : List (List Char)) : ofPieces (first :: others) = ⟨Segment.ofPiece true first, below others⟩ :=
  if_pos ((Segment.anonymous_ofPiece_iff true first).2 anonymous)

theorem ofPieces_of_named {pieces : List (List Char)}
    (named : ∀ first ∈ pieces.head?, ¬Segment.AnonymousPiece first) : ofPieces pieces = ⟨.root, below pieces⟩ := by
  obtain _ | ⟨first, others⟩ := pieces
  · rfl
  · exact if_neg fun h => named first rfl ((Segment.anonymous_ofPiece_iff true first).1 h)

theorem below_spelled {pieces : List (List Char)} (single : ∀ piece ∈ pieces, '/' ∉ piece) :
    ∀ s ∈ below pieces, s.Legible ∧ s.isRoot = false ∧ s.expression.toList ≠ [] := by
  intro s hs
  obtain ⟨piece, hpiece, rfl⟩ := List.mem_map.1 hs
  obtain ⟨mem, nonempty⟩ := List.mem_filter.1 hpiece
  refine ⟨Segment.legible_ofPiece false (single piece mem), Segment.isRoot_ofPiece false piece, ?_⟩
  rw [Segment.expression_ofPiece]
  simpa using nonempty

/-- What is read has legible segments. -/
theorem ofPieces_spelled {pieces : List (List Char)} (single : ∀ piece ∈ pieces, '/' ∉ piece) :
    (ofPieces pieces).Spelled := by
  by_cases anonymous : ∃ first ∈ pieces.head?, Segment.AnonymousPiece first
  · obtain ⟨first, hfirst, anonymous⟩ := anonymous
    obtain ⟨others, rfl⟩ := List.head?_eq_some_iff.1 hfirst
    rw [ofPieces_of_anonymous anonymous]
    exact ⟨.inr ⟨(Segment.anonymous_ofPiece_iff true first).2 anonymous, Segment.isRoot_ofPiece true first⟩,
      Segment.legible_ofPiece true (single first List.mem_cons_self),
      below_spelled fun piece h => single piece (List.mem_cons_of_mem first h)⟩
  · rw [ofPieces_of_named fun first hfirst h => anonymous ⟨first, hfirst, h⟩]
    exact ⟨.inl rfl, Segment.legible_root, below_spelled single⟩

theorem expressions_below (pieces : List (List Char)) :
    (below pieces).map (·.expression.toList) = pieces.filter (!·.isEmpty) := by
  rw [below, List.map_map]
  exact (List.map_congr_left fun piece _ => Segment.expression_ofPiece false piece).trans (List.map_id _)

/-- What is read has the pieces that it has been read from, without the empty ones. -/
theorem pieces_ofPieces (pieces : List (List Char)) :
    (ofPieces pieces).pieces = pieces.filter (!·.isEmpty) := by
  by_cases anonymous : ∃ first ∈ pieces.head?, Segment.AnonymousPiece first
  · obtain ⟨first, hfirst, anonymous⟩ := anonymous
    obtain ⟨others, rfl⟩ := List.head?_eq_some_iff.1 hfirst
    rw [ofPieces_of_anonymous anonymous, Path.pieces, segments, List.map_cons, expressions_below,
      Segment.expression_ofPiece, List.filter_cons, List.filter_cons, List.filter_filter]
    simp
  · rw [ofPieces_of_named fun first hfirst h => anonymous ⟨first, hfirst, h⟩, Path.pieces, segments,
      List.map_cons, expressions_below]
    simp [Segment.root, Segment.expression, Selector.text, Selector.bracket?]

/-! ## Writing paths -/

theorem joined_of_slash {text : List Char} (h : text.getLast? = some '/') (expression : List Char) :
    joined text expression = text ++ expression := by
  rw [joined, if_pos h]

theorem joined_of_not_slash {text : List Char} (h : text.getLast? ≠ some '/') (expression : List Char) :
    joined text expression = text ++ '/' :: expression := by
  rw [joined, if_neg h, List.append_assoc, List.singleton_append]

theorem getLast?_append_ne_slash {text expression : List Char} (nonempty : expression ≠ [])
    (single : '/' ∉ expression) : (text ++ expression).getLast? ≠ some '/' := by
  obtain ⟨c, last⟩ := Option.isSome_iff_exists.1 (List.getLast?_isSome.2 nonempty)
  rw [List.getLast?_append, last, Option.some_or]
  intro slash
  exact single (List.mem_of_getLast? (last.trans slash))

/-- Behind a text that does not end in a slash every segment gets one in front. -/
theorem foldl_joined {tail : List Segment} {text : List Char}
    (h : ∀ s ∈ tail, s.expression.toList ≠ [] ∧ '/' ∉ s.expression.toList) (last : text.getLast? ≠ some '/') :
    tail.foldl (fun text segment => joined text segment.expression.toList) text =
      text ++ (tail.map (·.expression.toList)).flatMap ('/' :: ·) := by
  induction tail generalizing text with
  | nil => simp
  | cons s rest ih =>
    obtain ⟨nonempty, single⟩ := h s List.mem_cons_self
    have onward : (text ++ '/' :: s.expression.toList).getLast? ≠ some '/' := by
      rw [List.append_cons]
      exact getLast?_append_ne_slash nonempty single
    rw [List.foldl_cons, joined_of_not_slash last, ih (fun t ht => h t (List.mem_cons_of_mem s ht)) onward]
    simp

/-- A path is written as its pieces, with a slash in front of each. -/
theorem chars_eq {p : Path} (spelled : p.Spelled) : p.chars = '/' :: ['/'].intercalate p.pieces := by
  have tail : ∀ s ∈ p.tail, s.expression.toList ≠ [] ∧ '/' ∉ s.expression.toList := fun s hs =>
    ⟨(spelled.tail s hs).2.2, (spelled.tail s hs).1.single⟩
  have kept : (p.tail.map (·.expression.toList)).filter (!·.isEmpty) = p.tail.map (·.expression.toList) := by
    refine List.filter_eq_self.2 fun piece hpiece => ?_
    obtain ⟨s, hs, rfl⟩ := List.mem_map.1 hpiece
    simpa using (tail s hs).1
  rw [chars, Path.pieces, segments, List.map_cons, List.filter_cons, kept]
  by_cases empty : p.head.expression.toList = []
  · rw [empty]
    -- the slash in front is the one in front of the first segment
    generalize p.tail = segments at tail
    obtain _ | ⟨s, rest⟩ := segments
    · rfl
    obtain ⟨nonempty, single⟩ := tail s List.mem_cons_self
    have last : ('/' :: s.expression.toList).getLast? ≠ some '/' := by
      rw [← List.singleton_append]
      exact getLast?_append_ne_slash nonempty single
    rw [List.foldl_cons, joined_of_slash rfl, List.singleton_append,
      foldl_joined (fun t ht => tail t (List.mem_cons_of_mem s ht)) last]
    simp only [List.isEmpty_nil, Bool.not_true, Bool.false_eq_true, if_false]
    rw [cons_intercalate (by simp), List.map_cons, List.flatMap_cons]
  · have last : ('/' :: p.head.expression.toList).getLast? ≠ some '/' := by
      rw [← List.singleton_append]
      exact getLast?_append_ne_slash empty spelled.head_legible.single
    have shown : (!p.head.expression.toList.isEmpty) = true := by simpa using empty
    rw [foldl_joined tail last, shown, if_pos rfl, cons_intercalate (by simp), List.flatMap_cons]

theorem pieces_single {p : Path} (spelled : p.Spelled) : ∀ piece ∈ p.pieces, '/' ∉ piece := by
  intro piece h
  obtain ⟨s, hs, rfl⟩ := List.mem_map.1 (List.mem_filter.1 h).1
  rcases List.mem_cons.1 hs with rfl | hs
  · exact spelled.head_legible.single
  · exact (spelled.tail s hs).1.single

/-- The text of a path is read as what its pieces stand for. -/
theorem parse_text {p : Path} (spelled : p.Spelled) : parse p.text = .ok (ofPieces p.pieces) := by
  have chars : p.text.toList = '/' :: ['/'].intercalate p.pieces := by
    rw [text, String.toList_ofList, chars_eq spelled]
  have nonempty : p.text.isEmpty = false := by
    rw [Bool.eq_false_iff, ne_eq, String.isEmpty_iff]
    intro empty
    rw [empty] at chars
    cases chars
  rw [parse, nonempty, chars]
  simp only [Bool.false_eq_true, if_false, body]
  by_cases none : p.pieces = []
  · rw [none]
    rfl
  · rw [List.splitOn_intercalate '/' (pieces_single spelled) none]

/-- Pieces of a path with legible segments are read as the path, unless brackets without a name come to the
front. -/
theorem ofPieces_pieces_iff {p : Path} (spelled : p.Spelled) : ofPieces p.pieces = p ↔ p.Unambiguous := by
  have kept : p.tail.map (·.expression.toList) = (p.tail.map (·.expression.toList)).filter (!·.isEmpty) := by
    refine (List.filter_eq_self.2 fun piece hpiece => ?_).symm
    obtain ⟨s, hs, rfl⟩ := List.mem_map.1 hpiece
    simpa using (spelled.tail s hs).2.2
  have again : below (p.tail.map (·.expression.toList)) = p.tail := by
    rw [below, ← kept, List.map_map]
    refine (List.map_congr_left fun s hs => ?_).trans (List.map_id _)
    obtain ⟨legible, child, -⟩ := spelled.tail s hs
    have read := legible.readable
    rwa [Segment.Readable, child] at read
  rcases spelled.head with plain | ⟨anonymous, isRoot⟩
  · have pieces : p.pieces = p.tail.map (·.expression.toList) := by
      rw [Path.pieces, segments, List.map_cons, List.filter_cons, ← kept, plain]
      rfl
    have first : ∀ s ∈ p.tail.head?, Segment.AnonymousPiece s.expression.toList ↔ s.Anonymous := by
      intro s hs
      obtain ⟨legible, -, -⟩ := spelled.tail s (List.mem_of_mem_head? hs)
      rw [← Segment.anonymous_ofPiece_iff s.isRoot, legible.readable]
    rw [pieces]
    constructor
    · intro same _ s hs anonymous
      obtain ⟨others, tail⟩ := List.head?_eq_some_iff.1 hs
      rw [tail, List.map_cons, ofPieces_of_anonymous ((first s hs).2 anonymous)] at same
      have brackets := ((Segment.anonymous_ofPiece_iff true _).2 ((first s hs).2 anonymous)).2
      rw [show Segment.ofPiece true s.expression.toList = p.head from congrArg Path.head same, plain] at brackets
      cases brackets
    · intro unambiguous
      rw [ofPieces_of_named, again, ← plain]
      intro piece hpiece found
      obtain ⟨s, hs, rfl⟩ := Option.map_eq_some_iff.1 (List.head?_map ▸ hpiece)
      exact unambiguous plain s hs ((first s hs).1 found)
  · have nonempty := Segment.expression_ne_nil anonymous.2
    have shown : (!p.head.expression.toList.isEmpty) = true := by simpa using nonempty
    have pieces : p.pieces = p.head.expression.toList :: p.tail.map (·.expression.toList) := by
      rw [Path.pieces, segments, List.map_cons, List.filter_cons, shown, if_pos rfl, ← kept]
    have read := spelled.head_legible.readable
    rw [Segment.Readable, isRoot] at read
    have front : Segment.AnonymousPiece p.head.expression.toList := by
      rw [← Segment.anonymous_ofPiece_iff true, read]
      exact anonymous
    rw [pieces, ofPieces_of_anonymous front, read, again]
    refine ⟨fun _ plain => ?_, fun _ => rfl⟩
    have brackets := anonymous.2
    rw [plain] at brackets
    cases brackets

/-- Whatever is read has legible segments. -/
theorem spelled_of_parse {text : String} {p : Path} (h : parse text = .ok p) : p.Spelled := by
  unfold parse at h
  split at h
  case isTrue => cases h
  cases h
  exact ofPieces_spelled fun piece => not_mem_of_mem_splitOn

/-- A path is given back by its text exactly if its segments are legible and it is unambiguous. -/
theorem parse_text_iff {p : Path} : parse p.text = .ok p ↔ p.Spelled ∧ p.Unambiguous := by
  constructor
  · intro same
    have spelled := spelled_of_parse same
    rw [parse_text spelled, Except.ok.injEq] at same
    exact ⟨spelled, (ofPieces_pieces_iff spelled).1 same⟩
  · rintro ⟨spelled, unambiguous⟩
    rw [parse_text spelled, (ofPieces_pieces_iff spelled).2 unambiguous]

/-! ## The normal form -/

/-- The pieces of a text between slashes that are not empty, in order. -/
def piecesOf (text : String) : List (List Char) :=
  (text.toList.splitOn '/').filter (!·.isEmpty)

theorem filter_splitOn_body (text : String) :
    ((body text.toList).splitOn '/').filter (!·.isEmpty) = piecesOf text := by
  rw [piecesOf]
  generalize text.toList = chars
  unfold body
  split
  · rw [List.splitOn_cons_eq_if_modifyHead]
    rfl
  · rfl

/-- A text in which slashes separate nothing but pieces is its own normal form. -/
theorem cons_intercalate_piecesOf {rest : List Char} (nonempty : rest ≠ [])
    (apart : ¬['/', '/'] <:+: '/' :: rest) (last : rest.getLast? ≠ some '/') :
    '/' :: ['/'].intercalate ((rest.splitOn '/').filter (!·.isEmpty)) = '/' :: rest := by
  have all : (rest.splitOn '/').filter (!·.isEmpty) = rest.splitOn '/' := by
    refine List.filter_eq_self.2 fun piece hpiece => ?_
    by_cases empty : piece ≠ []
    · simpa using empty
    obtain rfl : piece = [] := by simpa using empty
    exfalso
    obtain ⟨before, after, pieces⟩ := List.append_of_mem hpiece
    have chars := cons_intercalate (c := '/') (List.splitOn_ne_nil '/' rest)
    rw [List.intercalate_splitOn, pieces, List.flatMap_append, List.flatMap_cons] at chars
    obtain _ | ⟨next, others⟩ := after
    · -- an empty last piece leaves a slash behind the text
      rw [List.flatMap_nil, List.append_nil] at chars
      have ends := congrArg List.getLast? chars
      rw [List.getLast?_concat, List.getLast?_cons_of_ne_nil nonempty] at ends
      exact last ends
    · -- an empty piece in front of another leaves two slashes in a row
      rw [List.flatMap_cons] at chars
      exact apart ⟨before.flatMap ('/' :: ·), next ++ others.flatMap ('/' :: ·), by rw [chars]; simp⟩
  rw [all, List.intercalate_splitOn]

/-- Brackets without a name come to the front if nothing but empty pieces keeps them from it. -/
theorem unambiguous_ofPieces_iff (all : List (List Char)) :
    (ofPieces all).Unambiguous ↔ ¬(all.head? = some [] ∧
      ∃ piece ∈ (all.filter (!·.isEmpty)).head?, Segment.AnonymousPiece piece) := by
  by_cases anonymous : ∃ first ∈ all.head?, Segment.AnonymousPiece first
  · obtain ⟨first, hfirst, anonymous⟩ := anonymous
    obtain ⟨others, rfl⟩ := List.head?_eq_some_iff.1 hfirst
    have brackets := ((Segment.anonymous_ofPiece_iff true first).2 anonymous).2
    have left : (ofPieces (first :: others)).Unambiguous := by
      rw [ofPieces_of_anonymous anonymous]
      intro plain
      rw [show Segment.ofPiece true first = .root from plain] at brackets
      cases brackets
    refine iff_of_true left ?_
    rintro ⟨empty, -⟩
    rw [List.head?_cons, Option.some.injEq] at empty
    subst empty
    cases brackets
  · have named : ∀ first ∈ all.head?, ¬Segment.AnonymousPiece first := fun first hfirst h =>
      anonymous ⟨first, hfirst, h⟩
    rw [ofPieces_of_named named]
    simp only [Unambiguous, below, List.head?_map, Option.mem_def, Option.map_eq_some_iff, true_implies]
    constructor
    · rintro apart ⟨-, piece, hpiece, found⟩
      exact apart _ ⟨piece, hpiece, rfl⟩ ((Segment.anonymous_ofPiece_iff false piece).2 found)
    · rintro apart s ⟨piece, hpiece, rfl⟩ found
      refine apart ⟨?_, piece, hpiece, (Segment.anonymous_ofPiece_iff false piece).1 found⟩
      obtain _ | ⟨first, others⟩ := all
      · cases hpiece
      rw [List.head?_cons, Option.some.injEq]
      by_cases empty : first = []
      · exact empty
      -- a first piece that is not empty is itself the first that is not empty
      have shown : (!first.isEmpty) = true := by simpa using empty
      rw [List.filter_cons, shown, if_pos rfl, List.head?_cons, Option.some.injEq] at hpiece
      subst hpiece
      exact absurd ((Segment.anonymous_ofPiece_iff false first).1 found) (named first rfl)

/-- The first piece is empty if a slash is in front. -/
theorem head?_splitOn (chars : List Char) :
    (chars.splitOn '/').head? = some [] ↔ chars = [] ∨ chars.head? = some '/' := by
  obtain _ | ⟨c, rest⟩ := chars
  · simp
  rw [List.splitOn_cons_eq_if_modifyHead]
  obtain ⟨first, others, pieces⟩ := List.exists_cons_of_ne_nil (List.splitOn_ne_nil '/' rest)
  by_cases slash : c = '/'
  · simp [slash]
  · simp [slash, pieces]

/-- Every text but the empty one is read as a path, which is written as the pieces of the text with slashes
between them and in front.  A text of that form is written as it is.  The path is given back by its text unless
brackets without a name, which do not stand for the root in the text, come to the front. -/
theorem parse_normalForm (text : String) (nonempty : text ≠ "") :
    ∃ p, parse text = .ok p ∧
      p.text = String.ofList ('/' :: ['/'].intercalate (piecesOf text)) ∧
      (text = "/" ∨ text.toList.head? = some '/' ∧ ¬['/', '/'] <:+: text.toList ∧
          text.toList.getLast? ≠ some '/' → p.text = text) ∧
      (parse p.text = .ok p ↔ ¬((body text.toList).head? = some '/' ∧
        ∃ piece ∈ (piecesOf text).head?, Segment.AnonymousPiece piece)) := by
  have parsed : parse text = .ok (ofPieces ((body text.toList).splitOn '/')) := by
    rw [parse, if_neg (by simpa using nonempty)]
  have spelled := spelled_of_parse parsed
  have written : (ofPieces ((body text.toList).splitOn '/')).text =
      String.ofList ('/' :: ['/'].intercalate (piecesOf text)) := by
    rw [Path.text, chars_eq spelled, pieces_ofPieces, filter_splitOn_body]
  refine ⟨_, parsed, written, ?_, ?_⟩
  · rw [written]
    rintro (rfl | ⟨front, apart, last⟩)
    · rfl
    obtain ⟨rest, chars⟩ := List.head?_eq_some_iff.1 front
    rw [chars] at apart last
    have more : rest ≠ [] := by
      rintro rfl
      exact last rfl
    rw [List.getLast?_cons_of_ne_nil more] at last
    have pieces : piecesOf text = (rest.splitOn '/').filter (!·.isEmpty) := by
      rw [piecesOf, chars, List.splitOn_cons_eq_if_modifyHead]
      rfl
    rw [pieces, cons_intercalate_piecesOf more apart last, ← chars, String.ofList_toList]
  · rw [parse_text spelled, Except.ok.injEq, ofPieces_pieces_iff spelled, unambiguous_ofPieces_iff,
      filter_splitOn_body, head?_splitOn]
    refine not_congr (and_congr_left ?_)
    rintro ⟨piece, hpiece, -⟩
    refine ⟨fun front => front.resolve_left fun empty => ?_, .inr⟩
    rw [← filter_splitOn_body, empty] at hpiece
    cases hpiece

/-- Brackets behind an empty piece do not stand for the root, but they do in the text of the path. -/
theorem parse_normalForm_brackets :
    "//[0]//x" ≠ "" ∧ ∃ p, parse "//[0]//x" = .ok p ∧ p.text = "/[0]/x" ∧ parse p.text ≠ .ok p := by
  have nonempty : "//[0]//x" ≠ "" := by decide
  obtain ⟨p, parsed, written, -, again⟩ := parse_normalForm "//[0]//x" nonempty
  refine ⟨nonempty, p, parsed, written, fun same => again.1 same ⟨rfl, ['[', '0', ']'], rfl, ?_⟩⟩
  exact ⟨.element .array (some 0), .element .array, ['0'], rfl, by decide, rfl⟩

end Path

end FieldBinding
