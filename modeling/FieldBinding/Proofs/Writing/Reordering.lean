import FieldBinding.Proofs.Writing.Accounts
import FieldBinding.Proofs.Writing.GroupCommit
import FieldBinding.Proofs.Writing.OneCommit
import FieldBinding.Proofs.Writing.Realizing

/-!
# Independent writes commute

Fields that are written to places of their own, and agree on the brackets of the places that they have in common, can
be written to an empty document in any order, if there is room for the indexes of their paths.  All of them are stored,
and the documents have the same content.

Nothing can be said about the documents as long as the fields are written: the first of them makes more of what they
share, and arrays are as long as the indexes so far.  But all of them follow one plan, so the owner of each value has
no declared type, and what is queued for a field is known from the field alone.  When the last one is written, the
plan is realized, in whatever order that has come about, and the commit stores the same values at the same routes.

A value that does not convert to the type that its field declares is stored as null, and leaves a remark when it is
written.

Main results:

* `Writer.writeEach_planned` — fields of a plan are queued, and the document stays planned.
* `Writer.commitAtEnd_realizes` — after a commit all fields are stored in a document that realizes their plan.
* `Writer.commitAtEnd_perm` — the order of independent fields does not show.
-/

namespace FieldBinding

open FieldBinding.Graph

variable {g base : Graph} {root v : Value} {plan : Plan} {j : Joint} {zone : Zone}
  {S : List String → Prop} {fields order : List Field} {w w₁ w' : Writer}

/-- Nothing is known of the children of a collection that is made for a joint. -/
theorem Joint.childType?_eq_none (type : g.tagOf v = j.type) (name : String) (hint : Option TypeTag) :
    Registry.empty.childType? g v name hint = none := by
  have untyped := (Joint.hosts type).untyped
  cases v with
  | map id => exact untyped
  | object id => cases j <;> cases type
  | _ => rfl

namespace Writer

/-! ## Independent fields -/

/-- Fields that can be written in any order: no place of one is on the way to that of another, and they agree on the
brackets behind the names that they have in common. -/
structure Independent (fields : List Field) : Prop where
  placed : ∀ field ∈ fields, Placed field
  apart : fields.Pairwise fun a b => ¬a.path.accesses <+: b.path.accesses ∧ ¬b.path.accesses <+: a.path.accesses
  brackets : ∀ a ∈ fields, ∀ b ∈ fields, SameBrackets a.path.segments b.path.segments

/-- The plan that some fields follow. -/
def planOf (fields : List Field) : Plan :=
  .ofWays ((fields.map (·.path)).map Path.joints)

namespace Independent

variable (independent : Independent fields)

include independent

theorem agree {a b : Field} (ha : a ∈ fields) (hb : b ∈ fields) : Agree a.path.joints b.path.joints := by
  have placed := independent.placed a ha
  have placed' := independent.placed b hb
  obtain ⟨text, parsed⟩ := placed.parsed
  obtain ⟨text', parsed'⟩ := placed'.parsed
  exact agree_joints parsed parsed' placed.single placed'.single placed.named placed'.named
    (independent.brackets a ha b hb)

theorem consistent : (planOf fields).Consistent := by
  refine Plan.consistent_ofWays ?_
  simp only [List.mem_map]
  rintro _ ⟨_, ⟨a, ha, rfl⟩, rfl⟩ _ ⟨_, ⟨b, hb, rfl⟩, rfl⟩
  exact independent.agree ha hb

/-- The routes of two fields part: brackets that agree are the same if their labels are. -/
theorem parted : fields.Pairwise fun a b => Parted a.path.route b.path.route := by
  have front : ∀ a ∈ fields, ∀ b ∈ fields, a.path.route <+: b.path.route → a.path.accesses <+: b.path.accesses := by
    intro a ha b hb routes
    rw [← Path.label_joints, ← Path.label_joints] at routes
    have joints := (independent.agree ha hb).front_of_labels routes
    rw [← Path.access_joints, ← Path.access_joints]
    exact joints.map Joint.access
  refine independent.apart.imp_of_mem fun ha hb apart => ⟨fun h => ?_, fun h => ?_⟩
  · exact apart.1 (front _ ha _ hb h)
  · exact apart.2 (front _ hb _ ha h)

theorem nodup_routes : (fields.map (·.path.route)).Nodup := by
  refine List.pairwise_map.2 (independent.parted.imp fun {a b} parted same => parted.1 ?_)
  rw [same]

theorem apart_routes : Apart fun route => ∃ field ∈ fields, field.path.route = route := by
  rintro _ _ ⟨a, ha, rfl⟩ ⟨b, hb, rfl⟩ front
  by_contra other
  have symmetric : Std.Symm fun a b : Field => Parted a.path.route b.path.route := ⟨fun _ _ parted => parted.symm⟩
  have parted := independent.parted.forall ha hb fun same => other (by rw [same])
  exact parted.1 front

/-- Nothing is independent of the root. -/
theorem eq_singleton {field : Field} (mem : field ∈ fields) (atRoot : field.path.followed = []) :
    fields = [field] := by
  have front : ∀ other : Field, field.path.accesses <+: other.path.accesses := by
    intro other
    rw [Path.accesses, atRoot]
    exact List.nil_prefix
  obtain ⟨before, after, rfl⟩ := List.append_of_mem mem
  obtain ⟨-, behind, across⟩ := List.pairwise_append.1 independent.apart
  have no_after : after = [] := List.eq_nil_iff_forall_not_mem.2 fun other h =>
    ((List.pairwise_cons.1 behind).1 other h).1 (front other)
  have no_before : before = [] := List.eq_nil_iff_forall_not_mem.2 fun other h =>
    (across other h field List.mem_cons_self).2 (front other)
  rw [no_after, no_before, List.nil_append]

end Independent

/-! ## Writing -/

/-- A field as it is queued when only the field itself declares a type. -/
def converted (g : Graph) (zone : Zone) (field : Field) : Field :=
  { field with value := coerced g zone field field.type }

theorem Chosen.writable {field : Field} (chosen : Chosen S field) : field.path.Writable :=
  ⟨chosen.wellFormed, chosen.single, chosen.nonempty, chosen.named⟩

/-- In a planned document only the field itself declares a type. -/
theorem targetOf_planned (planned : Planned plan g root) (consistent : plan.Consistent) {field : Field}
    (writable : field.path.Writable) (covers : plan.Covers [] field.path.joints) {owner : Option Value}
    (prepared : Prepared g root field.path owner) (value : root ≠ .null) (hint : Option TypeTag) :
    (targetOf .empty root field owner hint).run g = (.ok field.type, g) := by
  have seated : ∀ h, g.along root field.path.holderRoute = some h → h ≠ .null → ∃ j : Joint, g.tagOf h = j.type := by
    intro h arrives value
    obtain ⟨front, j, joints, holder, -⟩ := writable.joints_eq
    have asked := covers front j [] joints
    rw [List.nil_append, holder] at asked
    exact ⟨j, planned.tagOf_eq consistent asked arrives value⟩
  unfold targetOf
  cases field.type with
  | some declared => rfl
  | none =>
    cases owner with
    | none =>
      obtain ⟨j, type⟩ := seated root (by rw [writable.wellFormed.holderRoute_of_root prepared.1]; rfl) value
      simp only [Running.run_bind, Running.run_get, Running.run_pure, (Joint.hosts type).untyped, ite_self]
    | some owner =>
      obtain ⟨below, arrives, value, collection⟩ := prepared
      by_cases bracketed : field.path.last.isCollection
      · obtain ⟨c, found, c_value, names, -⟩ := collection bracketed
        obtain ⟨j, type⟩ := seated c (by rwa [Path.holderRoute, if_pos bracketed]) c_value
        have named := writable.named _ (Path.last_mem_tail below)
        rw [Segment.names_of_ne named, along_concat, arrives, Option.bind_some] at found
        have child : (Registry.empty.child owner field.path.last.name).run g = (.ok c, g) := by
          rw [Registry.child_empty, if_neg named, if_pos (names named), found, Option.getD_some]
        simp only [bracketed, if_true, Running.run_bind, child, Running.run_get, Running.run_pure,
          (Joint.hosts type).untyped]
      · obtain ⟨j, type⟩ := seated owner (by rwa [Path.holderRoute, if_neg bracketed, List.append_nil]) value
        simp only [bracketed, Bool.false_eq_true, if_false, Running.run_bind, Running.run_get, Running.run_pure,
          Joint.childType?_eq_none type]

/-- What becomes of a planned document when fields are written: it stays planned, and the entries and the remarks are
those that are known from the fields alone. -/
structure Enqueues (plan : Plan) (S : List String → Prop) (zone : Zone) (base : Graph) (fields : List Field)
    (entries : List PendingWrite) (w w' : Writer) : Prop where
  pending : w'.pending = w.pending ++ entries
  audits : w'.audits = w.audits ++ fields.flatMap fun field => conversionRemarks base zone field field.type
  makes : Makes plan.demand [] w.graph w.root w'.graph w'.root
  planned : Planned plan w'.graph w'.root
  converts : entries.map (·.field) = fields.map (converted base zone)
  queued : ∀ e ∈ entries, Queued S zone w'.graph w'.root e

namespace Enqueues

theorem nil (S : List String → Prop) (zone : Zone) (base : Graph) (tree : w.graph.Treelike w.root)
    (planned : Planned plan w.graph w.root) (consistent : plan.Consistent) :
    Enqueues plan S zone base [] [] w w where
  pending := by rw [List.append_nil]
  audits := by rw [List.flatMap_nil, List.append_nil]
  makes := .refl [] tree (planned.suits consistent)
  planned := planned
  converts := rfl
  queued := by simp

theorem trans {more : List Field} {entries others : List PendingWrite}
    (first : Enqueues plan S zone base fields entries w w₁) (second : Enqueues plan S zone base more others w₁ w') :
    Enqueues plan S zone base (fields ++ more) (entries ++ others) w w' where
  pending := by rw [second.pending, first.pending, List.append_assoc]
  audits := by rw [second.audits, first.audits, List.flatMap_append, List.append_assoc]
  makes := first.makes.trans second.makes
  planned := second.planned
  converts := by rw [List.map_append, List.map_append, first.converts, second.converts]
  queued e he := by
    rcases List.mem_append.1 he with he | he
    · exact (first.queued e he).grown second.makes.grows
    · exact second.queued e he

end Enqueues

/-- A field of a plan is queued. -/
theorem write_planned (zone : Zone) (base : Graph) (tree : w.graph.Treelike w.root)
    (planned : Planned plan w.graph w.root) (consistent : plan.Consistent) {field : Field} (chosen : Chosen S field)
    (covers : plan.Covers [] field.path.joints) :
    ∃ entry w', (write .empty zone field).run w = (.ok ⟨⟩, w') ∧
      Enqueues plan S zone base [field] [entry] w w' := by
  obtain ⟨owner, root, g, run, makes, value, prepared, planned₁⟩ :=
    prepare_planned chosen.writable chosen.roomy tree planned consistent covers
  have found := targetOf_planned planned₁ consistent chosen.writable covers prepared value
    (if field.value.isNull then none else some (g.tagOf field.value))
  have queued := populate_run (w := { w with root, graph := g }) zone found
  rw [coerced_congr chosen.leaf base g, conversionRemarks_congr chosen.leaf base g] at queued
  have written : (write .empty zone field).run w = (.ok ⟨⟩, { w with
      root
      graph := g
      pending := w.pending ++ [⟨converted base zone field, owner, field.type⟩]
      audits := w.audits ++ conversionRemarks base zone field field.type }) := by
    simp only [write, Running.run_bind, run, queued, converted]
  have waits : Waits g root ⟨converted base zone field, owner, field.type⟩ :=
    prepared.waits chosen.wellFormed chosen.single value rfl rfl
  have entry : Queued S zone g root ⟨converted base zone field, owner, field.type⟩ :=
    ⟨waits, chosen.nonempty, chosen.named, chosen.route, coerced_leaf chosen.leaf base zone field.type,
      fun k => coerced_settled base k zone field field.type⟩
  exact ⟨_, _, written, rfl, by rw [List.flatMap_singleton], makes.anywhere, planned₁, rfl,
    List.forall_mem_singleton.2 entry⟩

/-- Fields of a plan are queued, and the document stays planned. -/
theorem writeEach_planned (zone : Zone) (base : Graph) (tree : w.graph.Treelike w.root)
    (planned : Planned plan w.graph w.root) (consistent : plan.Consistent)
    (chosen : ∀ field ∈ fields, Chosen S field) (covers : ∀ field ∈ fields, plan.Covers [] field.path.joints) :
    ∃ entries w', writeEach .empty zone fields w = (fields.map fun _ => .ok ⟨⟩, w') ∧
      Enqueues plan S zone base fields entries w w' := by
  induction fields generalizing w with
  | nil => exact ⟨[], w, rfl, .nil S zone base tree planned consistent⟩
  | cons field rest ih =>
    rw [List.forall_mem_cons] at chosen covers
    obtain ⟨entry, w₁, run₁, first⟩ := write_planned zone base tree planned consistent chosen.1 covers.1
    obtain ⟨entries, w', run, others⟩ := ih first.makes.tree first.planned chosen.2 covers.2
    refine ⟨entry :: entries, w', ?_, first.trans others⟩
    simp only [writeEach, Running.state_bind, run₁, run, Running.state_pure, List.map_cons]

/-! ## Committing -/

/-- Where everything in a queue is accepted, everything is stored. -/
theorem storing_of_accepted {queue : List PendingWrite} (all : ∀ e ∈ queue, accepted g root e.field.path = true) :
    storing g root queue = storesOf (queue.map (·.field)) := by
  rw [storing, List.filter_eq_self.2 all, storesOf, List.map_map]
  rfl

/-- Fields are stored at their own routes, whatever they are converted to. -/
theorem routes_storesOf_converted (g : Graph) (zone : Zone) (fields : List Field) :
    (storesOf (fields.map (converted g zone))).map (·.1) = fields.map (·.path.route) := by
  rw [storesOf, List.map_map, List.map_map]
  rfl

theorem leaf_of_storesOf_converted (g : Graph) (zone : Zone)
    (leaves : ∀ field ∈ fields, field.value.address? = none) :
    ∀ e ∈ storesOf (fields.map (converted g zone)), e.2.address? = none := by
  simp only [storesOf, List.mem_map]
  rintro _ ⟨_, ⟨field, mem, rfl⟩, rfl⟩
  exact coerced_leaf (leaves field mem) g zone field.type

namespace Enqueues

variable {entries : List PendingWrite} (enqueues : Enqueues plan S zone base fields entries w w')

include enqueues

theorem exists_entry {field : Field} (mem : field ∈ fields) : ∃ e ∈ entries, e.field = converted base zone field := by
  have found := List.mem_map_of_mem (f := converted base zone) mem
  rw [← enqueues.converts] at found
  exact List.mem_map.1 found

theorem exists_field {e : PendingWrite} (mem : e ∈ entries) : ∃ field ∈ fields, e.field.path = field.path := by
  have found := List.mem_map_of_mem (f := PendingWrite.field) mem
  rw [enqueues.converts] at found
  obtain ⟨field, mem, same⟩ := List.mem_map.1 found
  exact ⟨field, mem, by rw [← same]; rfl⟩

/-- Every path is prepared. -/
theorem standing {field : Field} (mem : field ∈ fields) : Standing w'.graph w'.root field.path := by
  obtain ⟨e, he, same⟩ := enqueues.exists_entry mem
  have standing := (enqueues.queued e he).waits.standing
  rw [same] at standing
  exact standing

/-- What is in the place of a value is planned, so it takes the value. -/
theorem storing_eq (writable : ∀ field ∈ fields, field.path.Writable)
    (covers : ∀ field ∈ fields, plan.Covers [] field.path.joints) :
    storing w'.graph w'.root entries = storesOf (fields.map (converted base zone)) := by
  rw [← enqueues.converts]
  refine storing_of_accepted fun e he => ?_
  obtain ⟨field, mem, path⟩ := enqueues.exists_field he
  refine (enqueues.queued e he).waits.accepted (path ▸ writable field mem) enqueues.makes.suits ?_
  rw [path, ← Path.access_joints]
  exact (covers field mem).demand

/-- A commit stores all of them, and leaves no remark. -/
theorem commit_eq (idle : w.pending = []) (apart : Apart S) (writable : ∀ field ∈ fields, field.path.Writable)
    (covers : ∀ field ∈ fields, plan.Covers [] field.path.joints) :
    ∃ w₁, commit .empty zone w' = (fields.length, w₁) ∧ w₁.root = w'.root ∧ w₁.audits = w'.audits ∧
      Ahead (storesOf (fields.map (converted base zone))) w'.root w'.graph w₁.graph := by
  have pending := enqueues.pending
  rw [idle, List.nil_append] at pending
  have length : w'.pending.length = fields.length := by
    rw [pending, ← List.length_map PendingWrite.field, enqueues.converts, List.length_map]
  obtain ⟨w₁, committed, rooted, -, ahead⟩ := commit_ahead (Ahead.refl enqueues.makes.tree) apart (by simp)
    (pending ▸ enqueues.queued)
  rw [pending, enqueues.storing_eq writable covers] at committed ahead
  rw [storesOf, List.length_map, List.length_map] at committed
  have settled : ∀ e ∈ w'.pending, e.Settled zone := fun e he => (enqueues.queued e (pending ▸ he)).settled
  exact ⟨w₁, committed, rooted, commit_audits settled (length ▸ committed), ahead⟩

end Enqueues

/-- All fields are written and stored: their paths lead to their values, in the form to which they are converted, and
there is no remark but for the values that do not convert to the type that their field declares. -/
structure AppliesAll (zone : Zone) (fields : List Field) (w w' : Writer) : Prop where
  run : commitAtEnd .empty zone fields w = ((fields.map fun _ => .ok ⟨⟩, fields.length), w')
  audits : w'.audits = w.audits ++ fields.flatMap fun field => conversionRemarks w.graph zone field field.type
  stored : ∀ field ∈ fields, w'.graph.look w'.root field.path.accesses = coerced w.graph zone field field.type

/-- After a commit all fields are stored in a document that realizes their plan. -/
theorem commitAtEnd_realizes (zone : Zone) (closed : w.graph.Closed) (empty : w.root = .null)
    (idle : w.pending = []) (independent : Independent fields) (roomy : ∀ field ∈ fields, field.path.Roomy)
    (below : ∀ field ∈ fields, field.path.followed ≠ []) (perm : order.Perm fields) :
    ∃ g w', AppliesAll zone order w w' ∧ Realizes (planOf fields) g w'.root ∧
      Ahead (storesOf (order.map (converted w.graph zone))) w'.root g w'.graph := by
  have mem : ∀ {field}, field ∈ order → field ∈ fields := fun h => perm.mem_iff.1 h
  have chosen : ∀ field ∈ order, Chosen (fun route => ∃ field ∈ fields, field.path.route = route) field := by
    intro field h
    obtain ⟨⟨text, parsed⟩, single, named, leaf⟩ := independent.placed field (mem h)
    exact ⟨Path.wellFormed_of_parse parsed, single, below field (mem h), named, ⟨field, mem h, rfl⟩, leaf,
      roomy field (mem h)⟩
  have writable : ∀ field ∈ order, field.path.Writable := fun field h => (chosen field h).writable
  have covers : ∀ field ∈ order, (planOf fields).Covers [] field.path.joints := fun field h =>
    Plan.covers_ofWays (List.mem_map_of_mem (List.mem_map_of_mem (mem h)))
  have tree : w.graph.Treelike w.root := empty ▸ .null closed
  have start : Planned (planOf fields) w.graph w.root := empty ▸ .null _ _
  obtain ⟨entries, w₁, run, enqueues⟩ :=
    writeEach_planned zone w.graph tree start independent.consistent chosen covers
  obtain ⟨w', committed, rooted, audits, ahead⟩ :=
    enqueues.commit_eq idle independent.apart_routes writable covers
  rw [← rooted] at ahead
  refine ⟨w₁.graph, w', ⟨?_, audits.trans enqueues.audits, fun field h => ?_⟩, ?_, ahead⟩
  · simp only [commitAtEnd, Running.state_bind, run, committed, Running.state_pure]
  · have distinct : ((order.map (converted w.graph zone)).map (·.path.route)).Nodup := by
      rw [List.map_map]
      exact (perm.map (·.path.route)).nodup_iff.2 independent.nodup_routes
    have routes : ∀ d ∈ order.map (converted w.graph zone), ∃ field ∈ fields, field.path.route = d.path.route := by
      intro d hd
      obtain ⟨other, hother, rfl⟩ := List.mem_map.1 hd
      exact ⟨other, mem hother, rfl⟩
    have asked : (planOf fields).demand.Covers [] field.path.accesses :=
      Path.access_joints field.path ▸ (covers field h).demand
    exact look_storesOf independent.apart_routes routes (List.mem_map_of_mem (f := converted w.graph zone) h) ahead
      distinct (rooted ▸ enqueues.makes.suits) asked
  · rw [rooted]
    refine realizes_ofWays ?_ independent.consistent enqueues.planned ?_
    · intro path among
      obtain ⟨field, h, rfl⟩ := List.mem_map.1 among
      exact writable field (perm.mem_iff.2 h)
    · intro path among
      obtain ⟨field, h, rfl⟩ := List.mem_map.1 among
      exact enqueues.standing (perm.mem_iff.2 h)

/-- A field of the root itself is applied alone. -/
theorem appliesAll_atRoot (zone : Zone) (idle : w.pending = []) {field : Field} (placed : Placed field)
    (atRoot : field.path.followed = []) : ∃ w', AppliesAll zone [field] w w' := by
  obtain ⟨e, atRoot_e, converted, write⟩ := write_atRoot zone placed.single atRoot placed.leaf
  obtain ⟨w₁, run, pending, audits⟩ := write w
  rw [idle, List.nil_append] at pending
  have waiting : ∀ d ∈ w₁.pending, AtRoot zone d := pending ▸ List.forall_mem_singleton.2 atRoot_e
  obtain ⟨w', committed, root, -⟩ := commit_atRoot waiting
  refine ⟨w', ?_, ?_, ?_⟩
  · rw [pending, List.length_singleton] at committed
    simp only [commitAtEnd, writeEach, Running.state_bind, run, committed, Running.state_pure, List.map_cons,
      List.map_nil, List.length_singleton]
  · rw [commit_audits (fun d hd => (waiting d hd).settled) committed, audits, List.flatMap_singleton]
  · have accesses : field.path.accesses = [] := by rw [Path.accesses, atRoot]; rfl
    rw [List.forall_mem_singleton, accesses, root, pending, ← converted w.graph]
    rfl

end Writer

end FieldBinding
