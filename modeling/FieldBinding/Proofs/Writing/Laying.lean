import FieldBinding.Proofs.Writing.Edits

/-!
# What preparing lays

On the way to a place the writer lays nodes: one of the declared type where a slot holds nothing, and a longer array
where an array is too short.  There is one exception.  Brackets ask for a collection, and where the slot is declared
for something else a collection is laid all the same; such brackets stray, see `Registry.Strays`.

Main results:

* `Writer.pass_edits`, `Writer.ownerFrom_edits` — the way lays nodes, whether it comes to an end or not.
* `Writer.prepare_edits` — so does preparing, and nothing strays unless brackets do.
* `Writer.ownerFrom_front` — the way behind a segment starts from the owner of the segment.
-/

namespace FieldBinding

open FieldBinding.Graph

/-- Brackets stray: the name in front of them stands for nothing yet, and is declared for something that is no
collection. -/
structure Registry.Strays (r : Registry) (g : Graph) (owner : Value) (s : Segment) : Prop where
  bracketed : s.isCollection
  named : s.name ≠ ""
  missing : r.yieldAt g owner s.name = .ok (.held .null)
  misfit : ∃ tag, r.childType? g owner s.name none = some tag ∧ tag ≠ .any ∧ tag.isCollection = false

namespace Writer

/-- What preparing puts into a slot: a node of the declared type where there was none, or a longer array of the type
of the array that it takes the place of.  A node of any other type is stray. -/
inductive Lays (r : Registry) (stray : Prop) (g : Graph) (x : Value) (label : String) (u : Value) : Prop where
  | filled (missing : (g.slot? x label).getD .null = .null) (value : u ≠ .null)
      (type : r.slotType (g.node x).kind label = .any ∨ r.slotType (g.node x).kind label = g.tagOf u)
  | strayed (missing : (g.slot? x label).getD .null = .null) (value : u ≠ .null) (strays : stray)
  | lengthened {old : Value} (held : g.slot? x label = some old) (array : old.isCollection) (long : u.isCollection)
      (type : g.tagOf u = g.tagOf old)

variable {r : Registry} {g g' : Graph} {stray : Prop}

/-! ## Steps -/

/-- A child that is there is not made. -/
theorem childOrCreate_of_found {path : Path} {v c : Value} {s : Segment} {next : Option Segment}
    (arrives : r.yieldAt g v s.name = .ok (.held c)) (value : c ≠ .null) :
    (childOrCreate r path v s next).run g = (.ok c, g) := by
  by_cases named : s.name = ""
  · simp only [Registry.yieldAt, named, if_true, Except.ok.injEq, Yield.held.injEq] at arrives
    exact arrives ▸ (ChildRun.unnamed named).run_eq
  · exact (ChildRun.found named (Registry.child_of_held arrives) value).run_eq

/-- A child that is missing is made for the declared type of its place, and then put there. -/
theorem childOrCreate_of_missing {path : Path} {v c : Value} {s : Segment} {next : Option Segment}
    (named : s.name ≠ "") (missing : r.yieldAt g v s.name = .ok (.held .null))
    (h : (childOrCreate r path v s next).run g = (.ok c, g')) :
    ∃ g₁, (newChild r path (r.childType? g v s.name none) s next).run g = (.ok c, g₁) ∧
      (r.setChild v s.name c (some (g₁.tagOf c))).run g₁ = (.ok ⟨⟩, g') := by
  cases childOrCreate_runs h with
  | unnamed unnamed => exact absurd unnamed named
  | found _ child value =>
    rw [Registry.child_of_held missing] at child
    cases child
    exact absurd rfl value
  | made _ child make put =>
    rw [Registry.child_of_held missing] at child
    cases child
    exact ⟨_, make, put⟩

section Standalone

variable (alone : r.Standalone)

include alone

theorem childOrCreate_edits {path : Path} {v : Value} {s : Segment} {next : Option Segment}
    {result : Except BindError Value} (has : g.Has v) (strays : r.Strays g v s → stray)
    (h : (childOrCreate r path v s next).run g = (result, g')) : Edits r (Lays r stray) g g' := by
  cases childOrCreate_runs h with
  | unnamed => exact .refl
  | lost named child =>
    obtain rfl := Registry.child_error child
    exact .refl
  | found named child there =>
    obtain ⟨rfl, -⟩ := alone.bean.child_held child
    exact .refl
  | unmade named child make =>
    obtain ⟨rfl, -⟩ := alone.bean.child_held child
    obtain rfl := newChild_error make
    exact .refl
  | unstored named child make put =>
    obtain ⟨rfl, -⟩ := alone.bean.child_held child
    obtain rfl := setChild_error put
    exact .single (newChild_addsBlank alone make).1.edit
  | @made c g₁ g₂ _ named child make put =>
    obtain ⟨rfl, missing⟩ := alone.bean.child_held child
    obtain ⟨added, type⟩ := newChild_addsBlank alone make
    have made : Edit r (Lays r stray) g₁ g₂ := added.edit
    obtain ⟨value, n, adds, -⟩ := added
    rcases setChild_cases alone (made.has has) put with ⟨-, null⟩ | ⟨label, stands, put, -⟩
    · exact absurd null value
    -- the slot still holds nothing, and its type is the one that the node was made for
    have kind := adds.kept v has
    have empty : (g₂.slot? v label).getD .null = .null := by
      have child := stands.child named
      rw [alone.bean.yieldAt_congr kind, missing, Except.ok.injEq, Yield.held.injEq] at child
      exact child.symm
    have declared := stands.type none
    rw [Registry.childType?_congr (congrArg Node.kind kind)] at declared
    refine .tail (.single made) (.put (made.has has) ((adds.has c).2 (.inr rfl)) ?_ put)
    rcases type with type | ⟨bracketed, misfit⟩
    · exact .filled empty value (declared ▸ type)
    · exact .strayed empty value (strays ⟨bracketed, named, missing, misfit⟩)

/-- A longer array takes the place of the array that its name stands for, and has its type. -/
theorem setChild_lengthens {owner : Value} {name : String} {id id' : NodeId} {index : Nat} {hint : Option TypeTag}
    {g₁ : Graph} (has : g.Has owner) (has_c : g.Has (.sequence .array id)) (named : name ≠ "")
    (arrives : r.yieldAt g owner name = .ok (.held (.sequence .array id)))
    (adds : g.Adds g₁ (.sequence .array id') (.sequence (longer g id index)))
    (h : (r.setChild owner name (.sequence .array id') hint).run g₁ = (.ok ⟨⟩, g')) :
    Edit r (Lays r stray) g₁ g' := by
  have has₁ := (adds.has owner).2 (.inl has)
  rcases setChild_cases alone has₁ h with ⟨-, null⟩ | ⟨label, stands, put, -⟩
  · cases null
  have child := stands.child named
  rw [alone.bean.yieldAt_congr (adds.kept owner has), arrives, Except.ok.injEq, Yield.held.injEq] at child
  have held : g₁.slot? owner label = some (.sequence .array id) := by
    cases slot : g₁.slot? owner label with
    | none => simp [slot] at child
    | some u => rw [child, slot, Option.getD_some]
  have type : g₁.tagOf (.sequence .array id') = g₁.tagOf (.sequence .array id) := by
    rw [tagOf_congr (congrArg Node.kind (adds.kept _ has_c))]
    exact congrArg (TypeTag.sequence .array) (NodeKind.sequence.inj (congrArg Node.kind adds.node))
  exact .put has₁ ((adds.has _).2 (.inr rfl)) (.lengthened held rfl rfl type) put

theorem grow_edits {path : Path} {owner c : Value} {s : Segment} {result : Except BindError Value}
    (closed : g.Closed) (has : g.Has owner) (arrives : r.yieldAt g owner s.name = .ok (.held c))
    (value : c ≠ .null) (h : (grow r path owner s c).run g = (result, g')) : Edits r (Lays r stray) g g' := by
  have has_c : g.Has c := (reaches_of_yieldAt alone.bean arrives value).has closed has
  have made : ∀ {c' : Value} {g₁ : Graph} {index : Nat}, c' ≠ c → g.grow c index = some (c', g₁) →
      Edit r (Lays r stray) g g₁ := by
    intro c' g₁ index other grows
    obtain ⟨id, _, rfl, -, adds⟩ := adds_of_grow_other other grows
    exact .add adds (.longer has_c index)
  cases grow_runs h with
  | kept => exact .refl
  | widened hindex grows =>
    rcases grow_same has_c grows with rfl | ⟨id, rfl, rfl⟩
    · exact .refl
    · exact .single (.pad has_c rfl (setItems_padded_resizes has_c _))
  | nested hindex grows other unnamed => exact .single (made other grows)
  | unstored hindex grows other named put =>
    obtain rfl := setChild_error put
    exact .single (made other grows)
  | replaced hindex grows other named put =>
    obtain ⟨id, id', rfl, rfl, adds⟩ := adds_of_grow_other other grows
    exact .tail (.single (made other grows)) (setChild_lengthens alone has has_c named arrives adds put)

theorem elementOrCreate_edits {path : Path} {c : Value} {s : Segment} {next : Option Segment}
    {result : Except BindError Value} (has : g.Has c)
    (h : (elementOrCreate r path c s next).run g = (result, g')) : Edits r (Lays r stray) g g' := by
  cases elementOrCreate_runs h with
  | placeless => exact .refl
  | found => exact .refl
  | unmade hslot missing make =>
    obtain rfl := intermediate_error make
    exact .refl
  | unstored hslot missing make store => exact .single (intermediate_addsBlank alone make).1.edit
  | @made slot w g₁ _ hslot missing make store =>
    obtain ⟨added, type⟩ := intermediate_addsBlank alone make
    have made : Edit r (Lays r stray) g g₁ := added.edit
    obtain ⟨fit, put⟩ := storeElement_rewrites (made.has has) store
    obtain ⟨value, n, adds, -⟩ := added
    have kept := adds.kept c has
    have empty : (g₁.slot? c (Graph.label slot)).getD .null = .null := by
      rwa [elementAt_eq, if_pos fit, slot?, ← kept, ← slot?] at missing
    have declared := elementType?_getD (r := r) (g := g₁) fit
    rw [elementType?_congr (congrArg Node.kind kept)] at declared
    exact .tail (.single made) (.put (made.has has) ((adds.has w).2 (.inr rfl))
      (.filled empty value (declared ▸ type)) put)

end Standalone

/-! ## The way -/

section Standalone

variable (alone : r.Standalone)

include alone

theorem collect_edits {path : Path} {v : Value} {s : Segment} {next : Option Segment}
    {result : Except BindError Value} (closed : g.Closed) (has : g.Has v) (value : v ≠ .null)
    (strays : r.Strays g v s → stray) (h : (collect r path v s next).run g = (result, g')) :
    Edits r (Lays r stray) g g' := by
  obtain ⟨e, -, made⟩ | ⟨child, g₁, made, grown⟩ := Running.run_bind_cases h
  · exact childOrCreate_edits alone has strays made
  have edits := childOrCreate_edits alone has strays made
  obtain ⟨arrives, child_value⟩ := (childOrCreate_obtains alone.bean closed has value made).arrives_of_ok
  exact edits.trans (grow_edits alone (edits.closed closed) (edits.has has) arrives child_value grown)

/-- A segment that is passed lays nodes. -/
theorem pass_edits {path : Path} {v : Value} {s : Segment} {next : Option Segment}
    {result : Except BindError Value} (closed : g.Closed) (has : g.Has v) (value : v ≠ .null)
    (strays : r.Strays g v s → stray) (h : (pass r path v s next).run g = (result, g')) :
    Edits r (Lays r stray) g g' := by
  by_cases bracketed : s.isCollection
  case neg =>
    rw [pass_of_plain (by simpa using bracketed)] at h
    exact childOrCreate_edits alone has strays h
  rw [pass_of_collection bracketed] at h
  obtain ⟨e, -, collected⟩ | ⟨c, g₁, collected, filled⟩ := Running.run_bind_cases h
  · exact collect_edits alone closed has value strays collected
  have there := (collect_enriches alone.bean closed has value collected).2 c rfl
  exact (collect_edits alone closed has value strays collected).trans (elementOrCreate_edits alone there filled)

end Standalone

/-! What is laid for a segment depends on the next one only where that is nothing but brackets. -/

/-- The brackets of a segment without a name. -/
def anonymousBracket? (next : Option Segment) : Option Bracket :=
  next.bind fun s => if s.name = "" then s.selector.bracket? else none

theorem pass_next (r : Registry) (path : Path) (v : Value) (s : Segment) {next next' : Option Segment}
    (same : anonymousBracket? next = anonymousBracket? next') :
    pass r path v s next = pass r path v s next' := by
  have intermediate : ∀ declared, intermediate r path declared next = intermediate r path declared next' := by
    intro declared
    unfold anonymousBracket? at same
    simp only [Writer.intermediate, same]
  simp only [pass, collect, childOrCreate, newChild, elementOrCreate, intermediate]

/-- A segment without the brackets behind its name.  One that has no name is nothing but brackets, and keeps
them. -/
def stem (s : Segment) : Segment :=
  if s.name = "" then s else .field s.name

theorem stem_of_named {s : Segment} (named : s.name ≠ "") : stem s = .field s.name :=
  if_neg named

/-- What is laid in front of a segment does not depend on what stands behind its name. -/
theorem anonymousBracket?_front (front rest : List Segment) (s : Segment) :
    anonymousBracket? (front ++ s :: rest).head? = anonymousBracket? (front ++ [stem s]).head? := by
  cases front with
  | nil =>
    by_cases named : s.name = ""
    · simp [stem, named]
    · simp [anonymousBracket?, stem_of_named named, Segment.field, named]
  | cons => rfl

/-- Where the way stops at its last segment, it stops in front of it. -/
theorem ownerFrom_last_ok {path : Path} {v owner : Value} {s : Segment}
    (h : (ownerFrom r path v [s]).run g = (.ok owner, g')) : owner = v := by
  rw [ownerFrom_last] at h
  split at h
  · obtain ⟨c, g₁, -, stops⟩ := Running.run_bind_ok h
    cases stops
    rfl
  · cases h
    rfl

/-- A path is followed in the same way whatever stands behind a segment. -/
theorem ownerFrom_front {path : Path} {v owner : Value} {front : List Segment} {s : Segment} (rest : List Segment)
    (h : (ownerFrom r path v (front ++ [stem s])).run g = (.ok owner, g')) :
    ∃ g₀, (ownerFrom r path owner [stem s]).run g₀ = (.ok owner, g') ∧
      (ownerFrom r path v (front ++ s :: rest)).run g = (ownerFrom r path owner (s :: rest)).run g₀ := by
  induction front generalizing v g with
  | nil =>
    obtain rfl := ownerFrom_last_ok h
    exact ⟨g, h, rfl⟩
  | cons t front ih =>
    rw [List.cons_append, ownerFrom_cons (by simp)] at h
    obtain ⟨w, g₁, passed, goes⟩ := Running.run_bind_ok h
    rw [List.cons_append, ownerFrom_cons (by simp) path v, Running.run_bind,
      pass_next r path v t (anonymousBracket?_front front rest s), passed]
    exact ih goes

/-! ## Errors

The path as a whole is only named by errors, so a step that succeeds does so for every path. -/

/-- Where one step succeeds the other does the same. -/
def SucceedsAs {α : Type} (x y : Step α) : Prop :=
  ∀ (g : Graph) (a : α) (g' : Graph), x.run g = (.ok a, g') → y.run g = (.ok a, g')

namespace SucceedsAs

variable {α β : Type}

theorem refl (x : Step α) : SucceedsAs x x :=
  fun _ _ _ h => h

theorem throw (e : BindError) (y : Step α) : SucceedsAs (throw e) y :=
  fun _ _ _ h => by cases h

theorem bind {x y : Step α} {f k : α → Step β} (first : SucceedsAs x y) (then_ : ∀ a, SucceedsAs (f a) (k a)) :
    SucceedsAs (x >>= f) (y >>= k) := by
  intro g b g' h
  rw [Running.run_bind] at h ⊢
  generalize hx : x.run g = answer at h
  obtain ⟨e | a, g₁⟩ := answer
  · cases h
  · rw [first g a g₁ hx]
    exact then_ a g₁ b g' h

end SucceedsAs

section Errors

variable (r : Registry) (path path' : Path)

theorem intermediate_succeedsAs (declared : Option TypeTag) (next : Option Segment) :
    SucceedsAs (intermediate r path declared next) (intermediate r path' declared next) := by
  unfold intermediate
  split
  · exact .refl _
  · exact .refl _
  · split
    · exact .refl _
    · exact .throw _ _

theorem newChild_succeedsAs (declared : Option TypeTag) (s : Segment) (next : Option Segment) :
    SucceedsAs (newChild r path declared s next) (newChild r path' declared s next) := by
  unfold newChild
  split
  · exact .refl _
  · exact intermediate_succeedsAs r path path' declared next

theorem childOrCreate_succeedsAs (v : Value) (s : Segment) (next : Option Segment) :
    SucceedsAs (childOrCreate r path v s next) (childOrCreate r path' v s next) := by
  intro g c g' h
  cases childOrCreate_runs h with
  | unnamed unnamed => exact (ChildRun.unnamed unnamed).run_eq
  | found named child value => exact (ChildRun.found named child value).run_eq
  | made named child make put =>
    have make' := newChild_succeedsAs r path path' _ s next _ _ _ make
    exact (ChildRun.made named child make' put).run_eq

theorem grow_succeedsAs (owner : Value) (s : Segment) (c : Value) :
    SucceedsAs (grow r path owner s c) (grow r path' owner s c) := by
  intro g c' g' h
  cases grow_runs h with
  | kept why => exact (GrowRun.kept why).run_eq
  | widened hindex grows => exact (GrowRun.widened hindex grows).run_eq
  | replaced hindex grows other named put => exact (GrowRun.replaced hindex grows other named put).run_eq

theorem storeElement_path {g g' : Graph} {c v : Value} {slot : Slot}
    (h : g.storeElement path c slot v = .ok g') : g.storeElement path' c slot v = .ok g' := by
  cases c with
  | sequence kind id =>
    cases slot with
    | index n =>
      simp only [storeElement] at h ⊢
      cases stored : g.setItem? id n v with
      | some g₁ => simpa only [stored] using h
      | none => simp [stored] at h
    | key key => cases h
  | map id => cases slot <;> exact h
  | _ => cases h

theorem elementOrCreate_succeedsAs (c : Value) (s : Segment) (next : Option Segment) :
    SucceedsAs (elementOrCreate r path c s next) (elementOrCreate r path' c s next) := by
  intro g w g' h
  cases elementOrCreate_runs h with
  | placeless hslot => exact (ElementRun.placeless hslot).run_eq
  | found hslot value => exact (ElementRun.found hslot value).run_eq
  | made hslot missing make store =>
    have make' := intermediate_succeedsAs r path path' _ next _ _ _ make
    exact (ElementRun.made hslot missing make' (storeElement_path path path' store)).run_eq

theorem collect_succeedsAs (v : Value) (s : Segment) (next : Option Segment) :
    SucceedsAs (collect r path v s next) (collect r path' v s next) :=
  .bind (childOrCreate_succeedsAs r path path' v s next) fun c => grow_succeedsAs r path path' v s c

theorem pass_succeedsAs (v : Value) (s : Segment) (next : Option Segment) :
    SucceedsAs (pass r path v s next) (pass r path' v s next) := by
  by_cases bracketed : s.isCollection
  · rw [pass_of_collection bracketed, pass_of_collection bracketed]
    exact .bind (collect_succeedsAs r path path' v s next) fun c => elementOrCreate_succeedsAs r path path' c s next
  · rw [pass_of_plain (by simpa using bracketed), pass_of_plain (by simpa using bracketed)]
    exact childOrCreate_succeedsAs r path path' v s next

theorem ownerFrom_succeedsAs (v : Value) (segments : List Segment) :
    SucceedsAs (ownerFrom r path v segments) (ownerFrom r path' v segments) := by
  induction segments generalizing v with
  | nil => exact .refl _
  | cons s rest ih =>
    by_cases more : rest = []
    · subst more
      rw [ownerFrom_last, ownerFrom_last]
      split
      · exact .bind (collect_succeedsAs r path path' v s none) fun _ => .refl _
      · exact .refl _
    · rw [ownerFrom_cons more, ownerFrom_cons more]
      exact .bind (pass_succeedsAs r path path' v s rest.head?) fun w => ih w

end Errors

/-! ## The whole way -/

/-- Where the way below the root starts. -/
def start (r : Registry) (path : Path) (root : Value) (next : Option Segment) : Step Value :=
  if path.head.isCollection then elementOrCreate r path root path.head next else pure root

theorem reach_eq (r : Registry) (path : Path) (root : Value) :
    reach r path root = start r path root path.tail.head? >>= fun v => ownerFrom r path v path.tail := by
  unfold reach start
  split <;> rfl

theorem start_next (r : Registry) (path : Path) (root : Value) {next next' : Option Segment}
    (same : anonymousBracket? next = anonymousBracket? next') :
    start r path root next = start r path root next' := by
  unfold anonymousBracket? at same
  simp only [start, elementOrCreate, Writer.intermediate, same]

theorem start_succeedsAs (r : Registry) (path path' : Path) (same : path.head = path'.head) (root : Value)
    (next : Option Segment) : SucceedsAs (start r path root next) (start r path' root next) := by
  unfold start
  rw [← same]
  split
  · exact elementOrCreate_succeedsAs r path path' root path.head next
  · exact .refl _

section Front

variable {path : Path} {front rest : List Segment} {s : Segment}

/-- The path to the owner of a segment: it ends with the name of the segment. -/
def ownerPath (path : Path) (front : List Segment) (s : Segment) : Path :=
  ⟨path.head, front ++ [stem s]⟩

/-- What is laid in front of it is the same. -/
theorem start_ownerPath (r : Registry) (root : Value) (tail : path.tail = front ++ s :: rest) :
    start r path root path.tail.head? = start r path root (ownerPath path front s).tail.head? :=
  start_next r path root (tail ▸ anonymousBracket?_front front rest s)

/-- The way to the owner of a segment, continued behind it. -/
theorem reach_of_front {root owner : Value} (tail : path.tail = front ++ s :: rest)
    (h : (reach r (ownerPath path front s) root).run g = (.ok owner, g')) :
    ∃ g₀, (ownerFrom r path owner [stem s]).run g₀ = (.ok owner, g') ∧
      (reach r path root).run g = (ownerFrom r path owner (s :: rest)).run g₀ := by
  rw [reach_eq] at h ⊢
  obtain ⟨v, g₁, started, goes⟩ := Running.run_bind_ok h
  rw [Running.run_bind, start_ownerPath r root tail,
    start_succeedsAs r (ownerPath path front s) path rfl root _ g v g₁ started, tail]
  exact ownerFrom_front rest (ownerFrom_succeedsAs r (ownerPath path front s) path v _ g₁ owner g' goes)

/-- The way to the owner of a segment is the front of the way. -/
theorem reach_front {root v owner : Value} {g₁ : Graph} (tail : path.tail = front ++ s :: rest)
    (started : (start r path root path.tail.head?).run g = (.ok v, g₁))
    (h : (ownerFrom r path v (front ++ [stem s])).run g₁ = (.ok owner, g')) :
    (reach r (ownerPath path front s) root).run g = (.ok owner, g') := by
  rw [start_ownerPath r root tail] at started
  rw [reach_eq, Running.run_bind, start_succeedsAs r path (ownerPath path front s) rfl root _ g v g₁ started]
  exact ownerFrom_succeedsAs r path (ownerPath path front s) v _ g₁ owner g' h

theorem hasWildcard_ownerPath (single : path.hasWildcard = false) (tail : path.tail = front ++ s :: rest) :
    (ownerPath path front s).hasWildcard = false := by
  rw [Path.hasWildcard, Path.segments, tail] at single
  simp only [List.any_cons, List.any_append, Bool.or_eq_false_iff] at single
  have plain : (stem s).isWildcard = false := by
    unfold stem
    split
    · exact single.2.2.1
    · rfl
  simp only [Path.hasWildcard, Path.segments, ownerPath, List.any_cons, List.any_append, List.any_nil, plain,
    single.1, single.2.1, Bool.or_self]

end Front

/-- Brackets of a path stray when the path is prepared: they do at their owner. -/
def Astray (r : Registry) (w : Writer) (path : Path) : Prop :=
  ∃ front s rest owner w', path.tail = front ++ s :: rest ∧
    (prepare r (ownerPath path front s)).run w = (.ok (some owner), w') ∧ r.Strays w'.graph owner s

section Standalone

variable (alone : r.Standalone)

include alone

/-- The way lays nodes, and nothing strays unless brackets on it do.  Where it comes to an end there is an owner. -/
theorem ownerFrom_edits {path : Path} {v : Value} {segments : List Segment} {result : Except BindError Value}
    (single : ∀ s ∈ segments, s.isWildcard = false) (closed : g.Closed) (has : g.Has v) (value : v ≠ .null)
    (strays : ∀ front s rest owner g₁, segments = front ++ s :: rest →
      (ownerFrom r path v (front ++ [stem s])).run g = (.ok owner, g₁) → r.Strays g₁ owner s → stray)
    (h : (ownerFrom r path v segments).run g = (result, g')) :
    Edits r (Lays r stray) g g' ∧ ∀ owner, result = .ok owner → g'.Has owner ∧ owner ≠ .null := by
  induction segments generalizing v g with
  | nil =>
    cases h
    exact ⟨.refl, fun owner ok => Except.ok.inj ok ▸ ⟨has, value⟩⟩
  | cons s rest ih =>
    have first : r.Strays g v s → stray := fun misfit =>
      strays [] s rest v g rfl (by rw [List.nil_append, stem_of_named misfit.named]; rfl) misfit
    by_cases last : rest = []
    · subst last
      rw [ownerFrom_last] at h
      split at h
      case isFalse =>
        cases h
        exact ⟨.refl, fun owner ok => Except.ok.inj ok ▸ ⟨has, value⟩⟩
      obtain ⟨e, rfl, collected⟩ | ⟨c, g₁, collected, stops⟩ := Running.run_bind_cases h
      · exact ⟨collect_edits alone closed has value first collected, fun owner ok => by cases ok⟩
      · cases stops
        have edits := collect_edits alone closed has value first collected
        exact ⟨edits, fun owner ok => Except.ok.inj ok ▸ ⟨edits.has has, value⟩⟩
    rw [ownerFrom_cons last] at h
    have single_s := single s List.mem_cons_self
    obtain ⟨e, rfl, passed⟩ | ⟨w, g₁, passed, goes⟩ := Running.run_bind_cases h
    · exact ⟨pass_edits alone closed has value first passed, fun owner ok => by cases ok⟩
    have edits₁ := pass_edits alone closed has value first passed
    obtain ⟨has₁, value₁⟩ := (pass_enriches alone.bean single_s closed has value passed).2 w rfl
    have later : ∀ front t back owner g₂, rest = front ++ t :: back →
        (ownerFrom r path w (front ++ [stem t])).run g₁ = (.ok owner, g₂) → r.Strays g₂ owner t → stray := by
      intro front t back owner g₂ split arrives
      refine strays (s :: front) t back owner g₂ (by rw [split]; rfl) ?_
      rw [List.cons_append, ownerFrom_cons (by simp), Running.run_bind,
        ← pass_next r path v s (split ▸ anonymousBracket?_front front back t), passed]
      exact arrives
    obtain ⟨edits₂, owned⟩ :=
      ih (fun t ht => single t (List.mem_cons_of_mem s ht)) (edits₁.closed closed) has₁ value₁ later goes
    exact ⟨edits₁.trans edits₂, owned⟩

end Standalone

/-- The index of a root is made addressable without looking at types. -/
theorem growRoot_edits (r : Registry) (stray : Prop) {w : Writer} (has : w.graph.Has w.root) (index : Nat) :
    Edits r (Lays r stray) w.graph (growRoot index w).2.graph ∧
      (growRoot index w).2.graph.Has (growRoot index w).2.root := by
  cases hgrow : w.graph.grow w.root index with
  | none =>
    rw [growRoot_kept hgrow]
    exact ⟨.refl, has⟩
  | some grown =>
    obtain ⟨root, graph⟩ := grown
    rw [growRoot_grown hgrow]
    rcases grow_cases hgrow with ⟨rfl, rfl⟩ | ⟨id, list, rfl, rfl⟩ | ⟨id, array, -, new⟩
    · exact ⟨.refl, has⟩
    · rw [list] at has ⊢
      have pads := setItems_padded_resizes has index
      exact ⟨.single (.pad has rfl pads), (pads.has _).2 has⟩
    · rw [array] at has
      obtain ⟨rfl, rfl⟩ := Prod.mk.inj new
      have adds := newSequence_adds w.graph .array (longer w.graph id index)
      exact ⟨.single (.add adds (.longer has index)), (adds.has _).2 (.inr rfl)⟩

theorem ensureRoot_edits (r : Registry) (stray : Prop) {w : Writer} (has : w.graph.Has w.root) (segment : Segment) :
    Edits r (Lays r stray) w.graph (ensureRoot segment w).2.graph := by
  obtain ⟨edits₁, has₁⟩ : Edits r (Lays r stray) w.graph (w.withRoot segment.selector.bracket?).graph ∧
      (w.withRoot segment.selector.bracket?).graph.Has (w.withRoot segment.selector.bracket?).root := by
    by_cases missing : w.root = .null
    · have added := emptyCollection_addsBlank r w.graph segment.selector.bracket?
      rw [withRoot_of_null missing]
      exact ⟨.single added.edit, added.has⟩
    · rw [withRoot_of_value missing]
      exact ⟨.refl, has⟩
  rw [ensureRoot_eq]
  cases segment.selector.index? with
  | none => exact edits₁
  | some index => exact edits₁.trans (growRoot_edits r stray has₁ index).1

section Standalone

variable (alone : r.Standalone)

include alone

/-- The start of the way lays nodes, and is there. -/
theorem start_edits {path : Path} {root : Value} {next : Option Segment} {result : Except BindError Value}
    (single : path.hasWildcard = false) (closed : g.Closed) (has : g.Has root) (value : root ≠ .null)
    (h : (start r path root next).run g = (result, g')) :
    Edits r (Lays r stray) g g' ∧ ∀ v, result = .ok v → g'.Has v ∧ v ≠ .null := by
  unfold start at h
  split at h
  · next bracketed =>
    obtain ⟨slot, hslot⟩ := slot?_of_single bracketed (Path.single_of_mem single List.mem_cons_self)
    refine ⟨elementOrCreate_edits alone has h, fun v ok => ?_⟩
    subst ok
    exact (elementOrCreate_fills closed has hslot h).has_of_ok closed has
  · cases h
    exact ⟨.refl, fun v ok => Except.ok.inj ok ▸ ⟨has, value⟩⟩

/-- The way from the root lays nodes as well. -/
theorem reach_edits {path : Path} {root : Value} {result : Except BindError Value}
    (single : path.hasWildcard = false) (closed : g.Closed) (has : g.Has root) (value : root ≠ .null)
    (strays : ∀ front s rest owner g₁, path.tail = front ++ s :: rest →
      (reach r (ownerPath path front s) root).run g = (.ok owner, g₁) → r.Strays g₁ owner s → stray)
    (h : (reach r path root).run g = (result, g')) :
    Edits r (Lays r stray) g g' ∧ ∀ owner, result = .ok owner → g'.Has owner ∧ owner ≠ .null := by
  rw [reach_eq] at h
  obtain ⟨e, rfl, started⟩ | ⟨v, g₁, started, goes⟩ := Running.run_bind_cases h
  · exact ⟨(start_edits alone single closed has value started).1, fun owner ok => by cases ok⟩
  have first : Edits r (Lays r stray) g g₁ ∧ _ := start_edits alone single closed has value started
  obtain ⟨edits₁, there⟩ := first
  obtain ⟨has₁, value₁⟩ := there v rfl
  obtain ⟨edits₂, owned⟩ := ownerFrom_edits alone
    (fun s hs => Path.single_of_mem single (List.mem_cons_of_mem _ hs)) (edits₁.closed closed) has₁ value₁
    (fun front s rest owner g₂ tail arrives misfit =>
      strays front s rest owner g₂ tail (reach_front tail started arrives) misfit) goes
  exact ⟨edits₁.trans edits₂, owned⟩

/-- Preparing lays nodes, whatever it answers, and nothing strays unless brackets of the path do. -/
theorem prepare_edits {path : Path} {w w' : Writer} {result : Except BindError (Option Value)}
    (closed : w.graph.Closed) (has : w.graph.Has w.root) (strays : Astray r w path → stray)
    (h : (prepare r path).run w = (result, w')) :
    Edits r (Lays r stray) w.graph w'.graph ∧
      ∀ owner, result = .ok (some owner) → w'.graph.Has owner ∧ owner ≠ .null := by
  by_cases wild : path.hasWildcard
  · rw [prepare_of_wild r wild] at h
    cases h
    exact ⟨.refl, fun owner ok => by cases ok⟩
  have single : path.hasWildcard = false := by simpa using wild
  have edits₁ := ensureRoot_edits r stray has path.head
  obtain ⟨enriches₁, value₁⟩ := ensureRoot_enriches closed has path.head
  generalize rooted : ensureRoot path.head w = answer at edits₁ enriches₁ value₁
  obtain ⟨⟨⟩, w₁⟩ := answer
  by_cases atRoot : path.tail = []
  · rw [prepare_of_root single atRoot rooted] at h
    cases h
    exact ⟨edits₁, fun owner ok => by cases ok⟩
  generalize hreach : (reach r path w₁.root).run w₁.graph = reached at h
  obtain ⟨answer, g₂⟩ := reached
  rw [prepare_of_reach single atRoot rooted hreach] at h
  obtain ⟨answered, rfl⟩ := Prod.mk.inj h
  obtain ⟨edits₂, owned⟩ := reach_edits alone single enriches₁.graph.closed enriches₁.has value₁
    (fun front s rest owner g' tail arrives misfit => strays ⟨front, s, rest, owner, { w₁ with graph := g' }, tail,
      prepare_of_reach (hasWildcard_ownerPath single tail) (by simp [ownerPath]) rooted arrives, misfit⟩) hreach
  refine ⟨edits₁.trans edits₂, fun owner ok => owned owner ?_⟩
  subst ok
  cases answer with
  | error e => cases answered
  | ok v => exact congrArg Except.ok (Option.some.inj (Except.ok.inj answered))

end Standalone

/-- What is done behind the owner of a segment is the rest of preparing. -/
theorem prepare_of_front {path : Path} {front rest : List Segment} {s : Segment} {w w' : Writer} {owner : Value}
    (single : path.hasWildcard = false) (tail : path.tail = front ++ s :: rest)
    (h : (prepare r (ownerPath path front s)).run w = (.ok (some owner), w')) :
    ∃ g₀, (ownerFrom r path owner [stem s]).run g₀ = (.ok owner, w'.graph) ∧
      ((prepare r path).run w).1 = ((ownerFrom r path owner (s :: rest)).run g₀).1.map some := by
  generalize rooted : ensureRoot path.head w = answer
  obtain ⟨⟨⟩, w₁⟩ := answer
  generalize hreach : (reach r (ownerPath path front s) w₁.root).run w₁.graph = reached
  obtain ⟨answer, g₂⟩ := reached
  rw [prepare_of_reach (hasWildcard_ownerPath single tail) (by simp [ownerPath]) rooted hreach] at h
  obtain ⟨answered, rfl⟩ := Prod.mk.inj h
  obtain rfl : answer = .ok owner := by
    cases answer with
    | error e => cases answered
    | ok v => exact congrArg Except.ok (Option.some.inj (Except.ok.inj answered))
  obtain ⟨g₀, stops, continues⟩ := reach_of_front tail hreach
  refine ⟨g₀, stops, ?_⟩
  generalize hrest : (ownerFrom r path owner (s :: rest)).run g₀ = left
  obtain ⟨answer, g₃⟩ := left
  rw [prepare_of_reach single (by simp [tail]) rooted (continues.trans hrest)]

end Writer

end FieldBinding
