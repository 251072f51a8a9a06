import Mixfix.Assembly
import Mixfix.Proofs.Grammar.Flat
import Mixfix.Proofs.Plan.Ahead

/-!
# Blame

The undecided states are filed one after the other, each under the origins of its active items.  So
a state is listed under an origin exactly if it is undecided and has an active item from there, and
what is listed is in order: the origins ascend, and so do the states under each of them, of which
there is at least one.

* `Ascending.exists_pairs`: filing adds one pair for each key that is looked up.
* `Catalogue.mem_originsIn`: the origins in a state.
* `Catalogue.Blames`: a state is blamed on an origin.
* `Catalogue.blame_exact`: what is listed.
* `Catalogue.exists_blames`: no undecided state with an active item is missing.
-/

namespace Mixfix

open Ascending

namespace Origin

instance : StrictTotal Origin where
  irrefl o h := by
    cases o with
    | category name => exact String.lt_irrefl name h
    | unknown => exact h
  trans {o p q} hop hpq := by
    cases o with
    | unknown => exact hop.elim
    | category name =>
      cases q with
      | unknown => trivial
      | category name' =>
        cases p with
        | unknown => exact hpq.elim
        | category _ => exact String.lt_trans hop hpq
  tri {o p} hop hpo := by
    cases o with
    | category name =>
      cases p with
      | category name' => exact congrArg category (StrictTotal.tri hop hpo)
      | unknown => exact (hop trivial).elim
    | unknown =>
      cases p with
      | category name' => exact (hpo trivial).elim
      | unknown => rfl

end Origin

/-- A computation that succeeds on a list succeeds on every element. -/
theorem forall₂_of_mapM {α β ε : Type} {f : α → Except ε β} {l : List α} {bs : List β}
    (h : l.mapM f = .ok bs) : List.Forall₂ (fun a b => f a = .ok b) l bs := by
  induction l generalizing bs with
  | nil =>
    cases h
    exact .nil
  | cons a l ih =>
    rw [List.mapM_cons] at h
    obtain ⟨b, hb, h⟩ := except_bind_eq_ok.1 h
    obtain ⟨bs, hbs, h⟩ := except_bind_eq_ok.1 h
    cases h
    exact .cons hb (ih hbs)

namespace Ascending

variable {κ : Type} [LT κ] [DecidableLT κ]

/-- The numbers of some pairs under their keys. -/
def filed (pairs : List (κ × Nat)) : List (κ × List Nat) :=
  pairs.foldl (fun m p => insertAt p.1 p.2 m) []

theorem maps_filed [StrictTotal κ] {pairs : List (κ × Nat)} {key : κ} {i : Nat} :
    Maps (filed pairs) key i ↔ (key, i) ∈ pairs := by
  rw [filed, maps_foldl_insertAt]
  constructor
  · rintro (⟨p, hp, rfl, rfl⟩ | hnil)
    · exact hp
    · exact (maps_nil hnil).elim
  · exact fun hp => .inl ⟨_, hp, rfl, rfl⟩

theorem ordered_filed [StrictTotal κ] (pairs : List (κ × Nat)) : Ordered (filed pairs) :=
  ordered_foldl_insertAt Prod.fst Prod.snd pairs ordered_nil

theorem filed_ne_nil {pairs : List (κ × Nat)} : ∀ e ∈ filed pairs, e.2 ≠ [] :=
  List.foldlRecOn (motive := fun m : List (κ × List Nat) => ∀ e ∈ m, e.2 ≠ []) pairs _
    (fun _ h => nomatch h) fun _ h _ _ => insertAt_ne_nil h

/-- Where keys are looked up for each number in turn, there is a pair for each key found. -/
theorem exists_pairs {α ε : Type} (found : α → Except ε (List κ)) (number : α → Nat) {l : List α}
    {m m' : List (κ × List Nat)}
    (h : l.foldlM (fun m a => do
      let keys ← found a
      return keys.foldl (fun m key => insertAt key (number a) m) m) m = .ok m') :
    (∀ a ∈ l, ∃ keys, found a = .ok keys) ∧
      ∃ pairs : List (κ × Nat), m' = pairs.foldl (fun m p => insertAt p.1 p.2 m) m ∧
        ∀ key i, (key, i) ∈ pairs ↔
          ∃ a ∈ l, number a = i ∧ ∃ keys, found a = .ok keys ∧ key ∈ keys := by
  induction l generalizing m with
  | nil =>
    cases h
    exact ⟨fun _ h => (nomatch h), [], rfl, by simp⟩
  | cons a l ih =>
    rw [List.foldlM_cons, except_bind_eq_ok] at h
    obtain ⟨m₁, hstep, h⟩ := h
    obtain ⟨keys, hkeys, hstep⟩ := except_bind_eq_ok.1 hstep
    cases hstep
    obtain ⟨hall, pairs, rfl, hpairs⟩ := ih h
    refine ⟨List.forall_mem_cons.2 ⟨⟨keys, hkeys⟩, hall⟩,
      keys.map (·, number a) ++ pairs, by rw [List.foldl_append, List.foldl_map], ?_⟩
    intro key i
    rw [List.mem_append, hpairs, List.exists_mem_cons_iff, hkeys]
    refine or_congr_left ?_
    simp [and_comm, eq_comm]

end Ascending

namespace Catalogue

variable {origins : List (String × String)}

/-- An active item is complete or stands before a terminal. -/
theorem isActive_iff {g : Grammar} {item : Item} :
    isActive g item ↔ item.isComplete g ∨ ∃ t, item.next? g = some t ∧ t.isTerminal := by
  rw [isActive, Bool.or_eq_true, Option.any_eq_true]

/-- The rule of an item comes from the origin. -/
def Stems (origins : List (String × String)) (g : Grammar) (item : Item) (origin : Origin) : Prop :=
  ∃ rule, g.rules[item.rule]? = some rule ∧ originOf origins g.registry rule.lhs = .ok origin

/-- Every active item has an origin, and the origins in a state are those of its active items. -/
theorem mem_originsIn {g : Grammar} {items : ItemSet} {found : List Origin}
    (h : originsIn origins g items = .ok found) :
    (∀ item ∈ items, isActive g item → ∃ origin, Stems origins g item origin) ∧
      ∀ origin, origin ∈ found ↔
        ∃ item ∈ items, isActive g item ∧ Stems origins g item origin := by
  have hstems : List.Forall₂ (Stems origins g) (items.filter (isActive g)) found := by
    refine (forall₂_of_mapM h).imp fun item origin horigin => ?_
    split at horigin
    · cases horigin
    · next rule hrule => exact ⟨rule, hrule, horigin⟩
  refine ⟨fun item hitem hactive => ?_, fun origin => ⟨fun horigin => ?_, ?_⟩⟩
  · obtain ⟨origin, -, h⟩ := exists_of_forall₂ hstems.flip (List.mem_filter.2 ⟨hitem, hactive⟩)
    exact ⟨origin, h⟩
  · obtain ⟨item, hitem, h⟩ := exists_of_forall₂ hstems horigin
    obtain ⟨hitem, hactive⟩ := List.mem_filter.1 hitem
    exact ⟨item, hitem, hactive, h⟩
  · rintro ⟨item, hitem, hactive, rule, hrule, hof⟩
    obtain ⟨origin', hmem, rule', hrule', hof'⟩ :=
      exists_of_forall₂ hstems.flip (List.mem_filter.2 ⟨hitem, hactive⟩)
    cases hrule.symm.trans hrule'
    cases hof.symm.trans hof'
    exact hmem

/-- A plan that leaves a conflict, or that cannot tell what it reads apart. -/
def Undecided (plan : Plan) : Prop := plan.hasError ∨ plan.isVague

theorem mem_undecided {rows : List TableRow} {row : TableRow} {i : Nat} :
    (row, i) ∈ rows.zipIdx.filter (fun (row, _) => row.plan.hasError || row.plan.isVague) ↔
      rows[i]? = some row ∧ Undecided row.plan := by
  rw [List.mem_filter, List.mem_zipIdx_iff_getElem?, Bool.or_eq_true, Undecided]

/-- The state is undecided, and an active item of it comes from the origin. -/
def Blames (origins : List (String × String)) (t : Table) (origin : Origin) (i : Nat) : Prop :=
  ∃ row, t.rows[i]? = some row ∧ Undecided row.plan ∧
    ∃ item ∈ row.items, isActive t.grammar item ∧ Stems origins t.grammar item origin

/-- The conflicts are filed from a pair for each state and origin that it is blamed on; and the
origins of every undecided state are found. -/
theorem pairs_of_blame {t : Table} {conflicts : List Blame} (h : blame origins t = .ok conflicts) :
    ∃ pairs : List (Origin × Nat),
      conflicts = (filed pairs).map (fun e => ⟨e.1, e.2⟩) ∧
      (∀ origin i, (origin, i) ∈ pairs ↔ Blames origins t origin i) ∧
      ∀ {row : TableRow} {i : Nat}, t.rows[i]? = some row → Undecided row.plan →
        ∃ found, originsIn origins t.grammar row.items = .ok found := by
  unfold blame at h
  obtain ⟨blamed, hblamed, h⟩ := except_bind_eq_ok.1 h
  obtain ⟨hfound, pairs, rfl, hpairs⟩ := exists_pairs
    (fun entry : TableRow × Nat => originsIn origins t.grammar entry.1.items) Prod.snd hblamed
  refine ⟨pairs, (Except.ok.inj h).symm, fun origin i => ?_, fun hrow hundecided =>
    hfound _ (mem_undecided.2 ⟨hrow, hundecided⟩)⟩
  rw [hpairs]
  constructor
  · rintro ⟨⟨row, state⟩, hrow, rfl, found, hfound, horigin⟩
    obtain ⟨hrow, hundecided⟩ := mem_undecided.1 hrow
    exact ⟨row, hrow, hundecided, ((mem_originsIn hfound).2 _).1 horigin⟩
  · rintro ⟨row, hrow, hundecided, hactive⟩
    have hmem := mem_undecided.2 ⟨hrow, hundecided⟩
    obtain ⟨found, horigins⟩ := hfound _ hmem
    exact ⟨_, hmem, rfl, found, horigins, ((mem_originsIn horigins).2 _).2 hactive⟩

/-- **What is listed**: each origin once, each with some states in order, and a state under an
origin exactly if it is blamed on it. -/
theorem blame_exact {t : Table} {conflicts : List Blame} (h : blame origins t = .ok conflicts) :
    (conflicts.map (·.origin)).Nodup ∧ (∀ b ∈ conflicts, b.states ≠ [] ∧ Sorted b.states) ∧
      ∀ origin i, (∃ b ∈ conflicts, b.origin = origin ∧ i ∈ b.states) ↔
        Blames origins t origin i := by
  obtain ⟨pairs, rfl, hpairs, -⟩ := pairs_of_blame h
  obtain ⟨hkeys, hsets⟩ := ordered_filed pairs
  refine ⟨?_, ?_, fun origin i => ?_⟩
  · rw [List.map_map]
    exact Sorted.nodup (List.pairwise_map.2 hkeys)
  · intro b hb
    obtain ⟨e, he, rfl⟩ := List.mem_map.1 hb
    exact ⟨filed_ne_nil e he, hsets e he⟩
  · rw [← hpairs, ← maps_filed]
    constructor
    · rintro ⟨b, hb, rfl, hi⟩
      obtain ⟨e, he, rfl⟩ := List.mem_map.1 hb
      exact ⟨e.2, he, hi⟩
    · rintro ⟨states, hstates, hi⟩
      exact ⟨_, List.mem_map_of_mem hstates, rfl, hi⟩

/-- An undecided state with an active item is blamed on some origin. -/
theorem exists_blames {t : Table} {conflicts : List Blame} (h : blame origins t = .ok conflicts)
    {i : Nat} {row : TableRow} (hrow : t.rows[i]? = some row) (hundecided : Undecided row.plan)
    {item : Item} (hitem : item ∈ row.items) (hactive : isActive t.grammar item) :
    ∃ origin, Blames origins t origin i := by
  obtain ⟨-, -, -, hfound⟩ := pairs_of_blame h
  obtain ⟨found, horigins⟩ := hfound hrow hundecided
  obtain ⟨origin, hstems⟩ := (mem_originsIn horigins).1 item hitem hactive
  exact ⟨origin, row, hrow, hundecided, item, hitem, hactive, hstems⟩

end Catalogue

end Mixfix
