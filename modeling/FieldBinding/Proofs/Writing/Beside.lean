import FieldBinding.Proofs.Writing.Following
import FieldBinding.Proofs.Writing.Storing

/-!
# Storing beside the way to an owner

An entry of a queue is stored, and its place is not on the way to a certain owner.  Then the way stays what it was, but
for an array on it that is made longer for the entry; a rule that this array obeys has to outlast the entry.

No list is cut off on the way, and no array, for what could not be stored in the end does not count as stored: where
there is no room for an index the entry fails.

Main results:

* `Writer.storeChild_follows`, `Writer.storeRoot_follows` — storing below an owner, and storing in the root.
* `Writer.apply_follows`, `Writer.apply_room` — what an entry that is stored leaves on the way, and what it has found.
-/

namespace FieldBinding

open FieldBinding.Graph

variable {g f f₁ f' : Graph} {root root' : Value} {ρ κ : List String} {queue : List PendingWrite}

namespace Writer

variable {rule : ArrayRule}

/-! ## Steps without types -/

/-- A segment with brackets leads to what has been stored at its place. -/
theorem leads_of_stored {owner c v : Value} {s : Segment} {slot : Slot} (value : owner ≠ .null)
    (bracketed : s.isCollection) (single : s.isWildcard = false) (hslot : s.selector.slot? = some slot)
    (arrives : Registry.empty.yieldAt f' owner s.name = .ok (.held c)) (fit : fits c slot)
    (put : f.Rewrites f' c (onlyAt (Graph.label slot) v)) : Registry.empty.Leads f' owner s v := by
  have element : f'.elementAt c slot = v := by
    rw [elementAt_eq, if_pos fit, put.slot, onlyAt, if_pos rfl, Option.some_or, Option.getD_some]
  refine ⟨value, single, c, arrives, ?_⟩
  simp [Registry.selected, bracketed, isCollection_of_fits fit, hslot, element]

/-- The collection that the way ends at. -/
theorem Follows.collection_eq (follows : Follows rule queue ρ g root f root') {e : PendingWrite}
    (seated : Seated g root e) (bracketed : e.field.path.last.isCollection) (anchored : Anchored g root e)
    (place : e.field.path.holderRoute = ρ) (named : e.owner ≠ none → e.field.path.last.name ≠ "") :
    collection f root' e = f.along root' ρ := by
  unfold collection
  cases howner : e.owner with
  | none => rw [← place, seated.wellFormed.holderRoute_of_root (seated.atRoot howner), along_nil]
  | some owner =>
    have named := named (by simp [howner])
    have opens := (seated.owner owner howner).names bracketed named
    rw [Path.holderRoute, if_pos bracketed] at place
    have stays := follows.stays ⟨_, place⟩ (anchored owner howner) opens
    rw [← place, along_of_along stays]

/-! ## Storing beside the way -/

/-- A document holds what another one holds. -/
structure Holds (g f : Graph) (root' : Value) : Prop where
  has : ∀ v, g.Has v → f.Has v
  closed : f.Closed
  has_root : f.Has root'

theorem Holds.refl (tree : g.Treelike root) : Holds g g root :=
  ⟨fun _ has => has, tree.closed, tree.has⟩

/-- A rule for the array at the end of a way outlasts an entry: where the entry needs a longer array, and gets it, the
longer array obeys the rule as well. -/
def Outlasts (rule : ArrayRule) (ρ : List String) (g : Graph) (root : Value) (e : PendingWrite) : Prop :=
  ∀ n id id' labels labels', e.field.path.last.selector.index? = some n → n + 1 < 2 ^ 64 → Anchored g root e →
    e.field.path.holderRoute = ρ → (e.owner ≠ none → e.field.path.last.name ≠ "") →
    rule (.sequence .array id) labels → labels (Numeral.text n) = false →
    (∀ label, labels' label → labels label ∨ ∃ i, label = Numeral.text i ∧ i ≤ n) → rule (.sequence .array id') labels'

variable {rule : ArrayRule} {e : PendingWrite}

theorem Parked.housed {zone : Zone} (parked : ∀ e ∈ queue, Parked zone queue g root e) :
    ∀ e ∈ queue, ∀ owner, e.owner = some owner → g.Housed root e.field.path.ownerRoute owner :=
  fun e he owner howner => ((parked e he).seated.owner owner howner).housed

theorem spans_of_short {id : NodeId} {n : Nat} (short : ¬Addressable f (.sequence .array id) n) :
    (f.sequence id).items.length ≤ n ∧ f.spans (.sequence .array id) (Numeral.text n) = false := by
  have bound : (f.sequence id).items.length ≤ n := by
    by_contra there
    refine short fun kind id' same => ?_
    cases same
    exact Nat.lt_of_not_le there
  refine ⟨bound, ?_⟩
  rw [spans, slot?_sequence_text, List.getElem?_eq_none bound]
  rfl

/-- The slots of a longer array. -/
theorem of_spans_longer {id id' : NodeId} {n : Nat} (room : HasRoom (f.sequence id).items n)
    (node : f₁.node (.sequence .array id') = .sequence (longer f id n)) {label : String}
    (there : f₁.spans (.sequence .array id') label) :
    f.spans (.sequence .array id) label ∨ ∃ i, label = Numeral.text i ∧ i ≤ n := by
  rw [spans, slot?, node, slot?_longer room .array, Option.isSome_or, Bool.or_eq_true_iff] at there
  exact there.symm.imp_right exists_of_paddedAt

theorem enlarges_follows {zone : Zone} (follows : Follows rule queue ρ g root f root') (holds : Holds g f root')
    (parked : ∀ e ∈ queue, Parked zone queue g root e) (he : e ∈ queue) (outlasts : Outlasts rule ρ g root e)
    {owner c c' : Value} (howner : e.owner = some owner) (bracketed : e.field.path.last.isCollection)
    (child : f.along owner e.field.path.last.names = some c)
    (names : e.field.path.last.name ≠ "" → owner.holdsNames)
    (idle : (∀ n, e.field.path.last.selector.index? = some n → Addressable f c n) → c' = c)
    (room : ∀ n, e.field.path.last.selector.index? = some n → RoomIn f c n)
    (enlarges : Enlarges f owner c e.field.path.last (.ok c', f₁)) :
    Follows rule queue ρ g root f₁ root' ∧ f₁.Sited root' ρ e.field.path.holderRoute c' ∧
      f₁.along owner e.field.path.last.names = some c' := by
  have housed := Parked.housed parked
  have homed := (housed e he owner howner).home
  have holder : e.field.path.holderRoute = e.field.path.ownerRoute ++ e.field.path.last.names := by
    rw [Path.holderRoute, if_pos bracketed]
  have sited : f.Sited root' ρ e.field.path.holderRoute c := by
    by_cases named : e.field.path.last.name = ""
    · rw [Segment.names_of_eq named] at child holder
      rw [holder, List.append_nil, ← Option.some.inj child]
      exact follows.sited homed
    · rw [Segment.names_of_ne named, along_singleton] at child
      rw [holder, Segment.names_of_ne named]
      exact follows.lodged e he owner c howner named child
  have has_c : f.Has c := holds.closed.has_of_along (holds.has owner homed.has) child
  cases enlarges with
  | enough => exact ⟨follows, sited, child⟩
  | @filled id n hindex list =>
    subst list
    have put := setItems_padded_rewrites has_c (room n hindex .list id rfl)
    obtain ⟨follows', trail⟩ := follows.rewrite sited (address_sequence _ _) put
      (fun label d h => by rw [eq_null_of_paddedAt h]; exact .of_leaf rfl) follows.clear_of_padded
      fun _ same => by cases same
    refine ⟨follows', fun σ u front found => sited σ u front (trail σ front ▸ found), ?_⟩
    by_cases named : e.field.path.last.name = ""
    · rwa [Segment.names_of_eq named] at child ⊢
    · rw [Segment.names_of_ne named, along_singleton] at child ⊢
      rwa [put.slot_eq, if_neg (address_ne_of_holdsNames (names named) .list id)]
  | @replaced id id' n f₁ _ hindex array named names adds put =>
    subst array
    have space := room n hindex .array id rfl
    obtain ⟨bound, absent⟩ := spans_of_short fun there => adds.new <| by
      rw [idle fun m hm => Option.some.inj (hindex.symm.trans hm) ▸ there]
      exact has_c
    rw [Segment.names_of_ne named, along_singleton] at child
    have slot : _ = some (Value.sequence .array id') := (put.slot e.field.path.last.name).trans (by simp [onlyAt])
    have follows' := follows.regrown_child holds.has holds.closed holds.has_root (follows.sited homed) names child space
      adds put housed fun here last obeys => ?_
    · rw [holder, Segment.names_of_ne named, along_singleton]
      exact ⟨follows', follows'.lodged e he owner _ howner named slot, slot⟩
    · have front : e.field.path.ownerRoute <+: ρ := ⟨_, last.symm⟩
      refine outlasts n id id' _ _ hindex (space bound) (fun o ho => ?_) ?_ (fun _ => named) obeys absent
        fun label there => ?_
      · obtain rfl := Option.some.inj (howner.symm.trans ho)
        exact follows.before front here homed.has
      · rw [holder, Segment.names_of_ne named, last]
      · refine of_spans_longer space ?_ there
        rw [put.kept _ (address_ne_of_holdsNames names .array id').symm, adds.node]

/-- What is stored as an element of a child was taken, and the child has found room for it. -/
theorem grow_stored {path : Path} {s : Segment} {slot : Slot} {owner c c' v : Value} (has : f.Has c)
    (has_owner : f.Has owner) (names : s.name ≠ "" → owner.holdsNames) (hslot : s.selector.slot? = some slot)
    (grown : (grow .empty path owner s c).run f = (.ok c', f₁)) (store : f₁.storeElement path c' slot v = .ok f') :
    Enlarges f owner c s (.ok c', f₁) ∧ f₁.Takes c' slot ∧ f₁.Rewrites f' c' (onlyAt (label slot) v) ∧
      ∀ n, s.selector.index? = some n → RoomIn f c n := by
  have enlarges := grow_enlarges has has_owner path names
  rw [grown] at enlarges
  obtain ⟨takes, put⟩ := takes_of_storeElement (enlarges.has has) store
  refine ⟨enlarges, takes, put, fun n hindex => ?_⟩
  obtain rfl := Option.some.inj (hslot.symm.trans (slot?_of_index? hindex))
  exact enlarges.room has hindex (addressable_of_takes takes)

/-- What is stored as an element of the root was taken, and the root has found room for it. -/
theorem withRootPlace_stored {path : Path} {slot : Slot} {w : Writer} {v : Value} (has : w.graph.Has w.root)
    (store : (w.withRootPlace slot).graph.storeElement path (w.withRootPlace slot).root slot v = .ok f') :
    (w.withRootPlace slot).graph.Takes (w.withRootPlace slot).root slot ∧
      (w.withRootPlace slot).graph.Rewrites f' (w.withRootPlace slot).root (onlyAt (label slot) v) ∧
      ∀ n, slot = .index n → RoomIn w.graph w.root n := by
  obtain ⟨takes, put⟩ := takes_of_storeElement (has_withRootPlace has slot) store
  refine ⟨takes, put, ?_⟩
  rintro n rfl
  exact (growRoot_enlarges has n).room has (addressable_of_takes takes)

/-- A value that is stored beside the way. -/
theorem Follows.put {x v : Value} {label : String} (follows : Follows rule queue ρ g root f root')
    (sited : f.Sited root' ρ κ x) (node : x.address? ≠ none) (put : f.Rewrites f' x (onlyAt label v))
    (has : g.Has v) (outside : g.Outside root v) (clear : ¬κ ++ [label] <+: ρ)
    (inside : ∀ id, x = .sequence .array id → (f.slot? x label).isSome) : Follows rule queue ρ g root f' root' := by
  refine (follows.rewrite sited node put (fun other d stored => ?_) (fun other _ front => ?_)
    fun id array other stored => ?_).1
  · unfold onlyAt at stored
    split at stored
    · exact Option.some.inj stored ▸ follows.aside has outside
    · cases stored
  · rw [onlyAt, if_neg]
    rintro rfl
    exact clear front
  · unfold onlyAt at stored
    split at stored
    · next same => exact same ▸ inside id array
    · cases stored

theorem Follows.element {c v : Value} {slot : Slot} (follows : Follows rule queue ρ g root f root')
    (sited : f.Sited root' ρ κ c) (takes : f.Takes c slot) (put : f.Rewrites f' c (onlyAt (label slot) v))
    (has : g.Has v) (outside : g.Outside root v) (clear : ¬κ ++ [label slot] <+: ρ) :
    Follows rule queue ρ g root f' root' :=
  follows.put sited (address_of_fits takes.1) put has outside clear fun id array =>
    takes.2.resolve_left (by simp [array, Value.holdsNames])

variable {zone : Zone}

/-- Storing an entry below its owner leaves the way as it is, and the last segment leads to the value if the way ends at
the owner. -/
theorem storeChild_follows (follows : Follows rule queue ρ g root f root') (holds : Holds g f root')
    (parked : ∀ e ∈ queue, Parked zone queue g root e) (he : e ∈ queue) (outlasts : Outlasts rule ρ g root e)
    (clear : ¬e.field.path.route <+: ρ) {owner : Value} (howner : e.owner = some owner)
    (h : (storeChild .empty e.field.path e.target owner e.field.value).run f = (.ok ⟨⟩, f')) :
    Follows rule queue ρ g root f' root' ∧
      (e.field.path.ownerRoute = ρ → f.along root' ρ = some owner →
        Registry.empty.Leads f' owner e.field.path.last e.field.value) := by
  have ⟨seated, single, has_v, outside, _, _⟩ := parked e he
  have owns := seated.owner owner howner
  have homed := owns.housed.home
  have has_owner := holds.has owner homed.has
  have more := Path.followed_ne_nil owns.below
  cases storeChild_runs h with
  | plain plain put =>
    obtain ⟨names, put⟩ := Registry.setChild_empty_ok has_owner put
    have named : e.field.path.last.name ≠ "" := fun name => by
      simp [seated.wellFormed.written _ (Path.last_mem_tail owns.below) name] at plain
    have holder : e.field.path.holderRoute = e.field.path.ownerRoute := by simp [Path.holderRoute, plain]
    rw [Path.route_of_name more plain named, holder] at clear
    refine ⟨follows.put (follows.sited homed) (Value.address_of_holdsNames names) put has_v outside clear ?_,
      fun _ _ => leads_of_child owns.value plain ?_⟩
    · rintro id rfl
      cases names
    · rw [Registry.yieldAt_empty, if_neg named, if_pos names, put.slot, onlyAt, if_pos rfl, Option.some_or,
        Option.getD_some]
  | @stored slot c c' f₀ f₁ _ bracketed hslot looked value grown store =>
    obtain ⟨same, arrives⟩ := Registry.empty_bean.child_held looked
    obtain rfl : f₀ = f := same
    obtain ⟨child, names⟩ := (Registry.yieldAt_empty_iff value).1 arrives
    have has_c := holds.closed.has_of_along has_owner child
    obtain ⟨enlarges, takes, put, room⟩ := grow_stored has_c has_owner names hslot grown store
    have idle : (∀ n, e.field.path.last.selector.index? = some n → Addressable f₀ c n) → c' = c := fun there => by
      rw [grow_run has_c there] at grown
      cases grown
      rfl
    obtain ⟨follows₁, sited, child₁⟩ :=
      enlarges_follows follows holds parked he outlasts howner bracketed child names idle room enlarges
    rw [Path.route_of_slot more hslot] at clear
    refine ⟨follows₁.element sited takes put has_v outside clear, ?_⟩
    rintro rfl here
    have child' : f'.along owner e.field.path.last.names = some c' := by
      by_cases named : e.field.path.last.name = ""
      · rwa [Segment.names_of_eq named] at child₁ ⊢
      -- the owner is in front of the collection, so it is another node
      have place := follows₁.stays List.prefix_rfl (follows.before List.prefix_rfl here homed.has) (names named)
      rw [Segment.names_of_ne named, along_singleton] at child₁ ⊢
      rw [put.slot_eq, if_neg fun same => ?_, child₁]
      have again := (sited _ owner List.prefix_rfl place same (address_of_fits takes.1)).1
      rw [Path.holderRoute, if_pos bracketed, Segment.names_of_ne named] at again
      simpa using congrArg List.length again
    have c_value : c' ≠ .null := by
      rintro rfl
      exact address_of_fits takes.1 rfl
    exact leads_of_stored owns.value bracketed (Path.last_single single) hslot
      ((Registry.yieldAt_empty_iff c_value).2 ⟨child', names⟩) takes.1 put

/-- The root is made large enough. -/
theorem growRoot_follows {w w' : Writer} {n : Nat} (follows : Follows rule queue ρ g root w.graph w.root)
    (holds : Holds g w.graph w.root) (parked : ∀ e ∈ queue, Parked zone queue g root e) (he : e ∈ queue)
    (outlasts : Outlasts rule ρ g root e) (howner : e.owner = none)
    (hindex : e.field.path.last.selector.index? = some n) (enlarges : EnlargesRoot w n w')
    (idle : Addressable w.graph w.root n → w' = w) (room : RoomIn w.graph w.root n) :
    Follows rule queue ρ g root w'.graph w'.root := by
  have has := holds.has_root
  cases enlarges with
  | enough => exact follows
  | @filled id list =>
    rw [list] at has
    have sited : w.graph.Sited w.root ρ [] (.sequence .list id) := list ▸ follows.sited_root
    have put := setItems_padded_rewrites has (room .list id list)
    exact (follows.rewrite sited (address_sequence _ _) put
      (fun label d h => by rw [eq_null_of_paddedAt h]; exact .of_leaf rfl) follows.clear_of_padded
      fun _ same => by cases same).1
  | @replaced id id' g₁ array adds =>
    have space := room .array id array
    obtain ⟨bound, absent⟩ := spans_of_short fun there => adds.new <| by
      have same : Value.sequence .array id' = w.root := congrArg Writer.root (idle (array ▸ there))
      exact same ▸ has
    have seated := (parked e he).seated
    refine follows.regrown_root holds.has holds.closed has array space adds (Parked.housed parked) fun last obeys => ?_
    refine outlasts n id id' _ _ hindex (space bound) (fun o ho => ?_) ?_ (fun some => absurd howner some) obeys absent
      fun label there => of_spans_longer space adds.node there
    · cases howner.symm.trans ho
    · rw [seated.wellFormed.holderRoute_of_root (seated.atRoot howner), last]

/-- Storing an entry in the root, or in an element of it, leaves the way as it is. -/
theorem storeRoot_follows {w w' : Writer} (follows : Follows rule queue ρ g root w.graph w.root)
    (holds : Holds g w.graph w.root) (parked : ∀ e ∈ queue, Parked zone queue g root e) (he : e ∈ queue)
    (outlasts : Outlasts rule ρ g root e) (clear : ¬e.field.path.route <+: ρ) (howner : e.owner = none)
    (h : (storeRoot e.field.path e.field.path.last e.field.value).run w = (.ok ⟨⟩, w')) :
    Follows rule queue ρ g root w'.graph w'.root := by
  have ⟨seated, single, has_v, outside, _, _⟩ := parked e he
  have atRoot := seated.atRoot howner
  have holder := seated.wellFormed.holderRoute_of_root atRoot
  cases hslot : e.field.path.last.selector.slot? with
  | none =>
    -- the root itself would be replaced
    have plain : ¬e.field.path.last.isCollection := fun bracketed => by
      obtain ⟨slot, some⟩ := slot?_of_single bracketed (Path.last_single single)
      cases hslot.symm.trans some
    rw [Path.last_of_root atRoot] at plain
    refine absurd ?_ clear
    rw [Path.route, Path.followed_of_plain plain, atRoot, List.flatMap_nil]
    exact List.nil_prefix
  | some slot =>
    have more : e.field.path.followed ≠ [] := by
      intro none
      refine clear ?_
      rw [Path.route, none, List.flatMap_nil]
      exact List.nil_prefix
    obtain ⟨f', store, rfl⟩ := storeRoot_ok hslot h
    obtain ⟨takes, put, room⟩ := withRootPlace_stored holds.has_root store
    have follows₁ : Follows rule queue ρ g root (w.withRootPlace slot).graph (w.withRootPlace slot).root := by
      cases slot with
      | key key => exact follows
      | index n =>
        exact growRoot_follows follows holds parked he outlasts howner (index?_eq_some hslot)
          (growRoot_enlarges holds.has_root n) (fun there => congrArg Prod.snd (growRoot_run holds.has_root there))
          (room n rfl)
    rw [Path.route_of_slot more hslot, holder] at clear
    exact follows₁.element follows₁.sited_root takes put has_v outside clear

/-- Storing an entry leaves the way as it is, and the last segment of its path leads to the value if the way ends at its
owner. -/
theorem apply_follows {w w' : Writer} (follows : Follows rule queue ρ g root w.graph w.root)
    (holds : Holds g w.graph w.root) (parked : ∀ e ∈ queue, Parked zone queue g root e) (he : e ∈ queue)
    (outlasts : Outlasts rule ρ g root e) (clear : ¬e.field.path.route <+: ρ)
    (h : (apply .empty e e.field.value).run w = (.ok ⟨⟩, w')) :
    Follows rule queue ρ g root w'.graph w'.root ∧
      ∀ owner, e.owner = some owner → e.field.path.ownerRoute = ρ → w.graph.along w.root ρ = some owner →
        Registry.empty.Leads w'.graph owner e.field.path.last e.field.value := by
  unfold apply at h
  cases howner : e.owner with
  | none =>
    simp only [howner] at h
    exact ⟨storeRoot_follows follows holds parked he outlasts clear howner h, fun owner some => by cases some⟩
  | some owner =>
    simp only [howner, onGraph_run] at h
    obtain ⟨hrun, rfl⟩ := Prod.mk.inj h
    obtain ⟨follows', leads⟩ :=
      storeChild_follows follows holds parked he outlasts clear howner (Prod.ext hrun rfl)
    refine ⟨follows', ?_⟩
    rintro _ ⟨⟩
    exact leads

/-- Storing an entry keeps what a document holds. -/
theorem apply_holds {w w' : Writer} (holds : Holds g w.graph w.root) (parked : Parked zone queue g root e)
    (h : (apply .empty e e.field.value).run w = (.ok ⟨⟩, w')) : Holds g w'.graph w'.root := by
  have has_v := holds.has _ parked.has
  have valid : e.Valid w.graph :=
    ⟨fun owner howner => holds.has owner (parked.seated.owner owner howner).housed.home.has, has_v⟩
  obtain ⟨edits, has_root⟩ := apply_edits Registry.empty_standalone holds.closed holds.has_root valid has_v h
  exact ⟨fun v has => edits.has (holds.has v has), edits.closed holds.closed, has_root⟩

/-- What has been stored has found room for its index. -/
theorem apply_room {w w' : Writer} {v c : Value} {n : Nat} (closed : w.graph.Closed) (has_root : w.graph.Has w.root)
    (has_owner : ∀ owner, e.owner = some owner → w.graph.Has owner)
    (hindex : e.field.path.last.selector.index? = some n) (found : collection w.graph w.root e = some c)
    (h : (apply .empty e v).run w = (.ok ⟨⟩, w')) : RoomIn w.graph c n := by
  have hslot := slot?_of_index? hindex
  unfold apply at h
  unfold collection at found
  cases howner : e.owner with
  | none =>
    simp only [howner] at h found
    obtain rfl := Option.some.inj found
    obtain ⟨f', store, -⟩ := storeRoot_ok hslot h
    obtain ⟨-, -, room⟩ := withRootPlace_stored has_root store
    exact room n rfl
  | some owner =>
    simp only [howner, onGraph_run] at h found
    obtain ⟨hrun, -⟩ := Prod.mk.inj h
    cases storeChild_runs (Prod.ext hrun rfl) with
    | plain plain => simp [isCollection_of_index? hindex] at plain
    | @stored slot c' _ f₀ _ _ bracketed same looked value grown store =>
      obtain rfl := Option.some.inj (hslot.symm.trans same)
      obtain ⟨rfl, arrives⟩ := Registry.empty_bean.child_held looked
      obtain ⟨child, names⟩ := (Registry.yieldAt_empty_iff value).1 arrives
      obtain rfl := Option.some.inj (child.symm.trans found)
      have has_owner := has_owner owner howner
      obtain ⟨-, -, -, room⟩ := grow_stored (closed.has_of_along has_owner child) has_owner names hslot grown store
      exact room n hindex

end Writer

end FieldBinding
