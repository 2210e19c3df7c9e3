import MarkSweep.Proofs.Roots.Visits
/-!
# Root enumeration — every slot, in order, and written through

Beside the roots runs a `Book` of what their owners did: which sources they registered, and what every source holds as a
plain list.  `Kept` is any run of registrations, updates of tables and visits.  The roots and the book agree after all of
them, a visit goes through the slots of the book in the order of kinds and registrations, and what it leaves in them is
what every later look finds (`Kept.enumerates`).
-/
namespace MarkSweep

/-- The order in which the kinds are visited. -/
def RootKind.rank : RootKind → Nat
  | codeCache => 0
  | classLoaderGraph => 1
  | globalHandles => 2
  | threads => 3

namespace Roots

/-! ## Books -/

structure Book where
  /-- How many tables were made. -/
  tables : Nat
  /-- How many of the sources are no tables. -/
  fixed : Nat
  /-- The sources in the order of their registration. -/
  sources : List (RootKind × RootSource)
  contents : RootSource → List Reference

namespace Book

/-- What the slots hold when the threads are stopped with these roots. -/
def held (b : Book) (threadRoots : List Address) : RootOwner → List Reference
  | .source s => b.contents s
  | .threads => threadRoots.map .wide

/-- All root slots in visiting order. -/
def places (b : Book) (threadRoots : List Address) : List RootPlace :=
  Roots.places (b.held threadRoots) (owners b.sources)

def update (b : Book) (s : RootSource) (l : List Reference) : Book := { b with contents := Function.update b.contents s l }

variable {σ : Type} (b : Book) (visitor : σ → Reference → σ × Nat) (state : σ) (threadRoots : List Address)

/-- Touches every place once, in visiting order. -/
def visited : σ × (RootOwner → List Reference) :=
  (b.places threadRoots).foldl (touch visitor) (state, b.held threadRoots)

/-- The book after a visit. -/
def after : Book := { b with contents := fun s => (b.visited visitor state threadRoots).2 (.source s) }

end Book

/-- Roots after registrations, updates of tables and visits in any order, and the book of them.  Whoever has a clone of a
table names it by its number. -/
inductive Kept : Roots → Book → Prop
  | empty : Kept .empty ⟨0, 0, [], fun _ => []⟩
  | newTable {r : Roots} {b : Book} (kept : Kept r b) : Kept r.newTable.2 { b with tables := b.tables + 1 }
  | registerTable {r : Roots} {b : Book} {id : TableId} (kept : Kept r b) (kind : RootKind) (known : id < b.tables) :
      Kept (r.registerTable kind id) { b with sources := b.sources ++ [(kind, .table id)] }
  | registerSlots {r : Roots} {b : Book} (kept : Kept r b) (kind : RootKind) (s : RootSlots) :
      Kept (r.registerSlots kind s)
        { b.update (.slots b.fixed) s.references with
          fixed := b.fixed + 1, sources := b.sources ++ [(kind, .slots b.fixed)] }
  | push {r : Roots} {b : Book} {id : TableId} (kept : Kept r b) (known : id < b.tables) (a : Address) :
      Kept (r.push id a).2 (b.update (.table id) (b.contents (.table id) ++ [.wide a]))
  | set {r : Roots} {b : Book} {id : TableId} (kept : Kept r b) (known : id < b.tables) (i : Nat) (a : Address) :
      Kept (r.set id i a).2 (b.update (.table id) ((b.contents (.table id)).set i (.wide a)))
  | release {r : Roots} {b : Book} {id : TableId} (kept : Kept r b) (known : id < b.tables) (i : Nat) :
      Kept (r.release id i).2 (b.update (.table id) ((b.contents (.table id)).set i (.wide .null)))
  | clear {r : Roots} {b : Book} {id : TableId} (kept : Kept r b) (known : id < b.tables) :
      Kept (r.clear id) (b.update (.table id) [])
  | visit {r : Roots} {b : Book} {σ : Type} (kept : Kept r b) (visitor : σ → Reference → σ × Nat) (state : σ)
      (threadRoots : List Address) : Kept (visit visitor state r threadRoots).2.1 (b.after visitor state threadRoots)

/-- **The roots are enumerated as the book has them.** -/
structure Enumerates (r : Roots) (b : Book) : Prop where
  sources : r.sources = b.sources
  references : r.references = b.contents
  /-- A handle reads as its entry, whichever clone of the table is asked. -/
  handles : ∀ id i, r.get id i = ((b.contents (.table id))[i]?).map Reference.content
  /-- Every registered source is visited once for each time it was registered, -/
  once : (agenda b.sources).Perm b.sources
  /-- by the ranks of the kinds, -/
  grouped : (agenda b.sources).Pairwise fun s t => s.1.rank ≤ t.1.rank
  /-- and within a kind in the order of registration. -/
  stable : ∀ kind, (agenda b.sources).filter (·.1 == kind) = b.sources.filter (·.1 == kind)
  /-- The thread roots come last. -/
  listed : ∀ threadRoots, r.enumerate threadRoots =
    ((agenda b.sources).flatMap fun s => b.contents s.2) ++ threadRoots.map .wide
  /-- This is what a visitor sees that changes nothing. -/
  seen : ∀ threadRoots, visit (reading fun seen x => seen ++ [x]) [] r threadRoots =
    (r.enumerate threadRoots, r, threadRoots)

/-- **What a visit leaves**: it ends as `v`, having touched the places of the book one after the other. -/
structure Book.WritesThrough {σ : Type} (b : Book) (visitor : σ → Reference → σ × Nat) (state : σ) (threadRoots : List Address)
    (v : σ × Roots × List Address) : Prop where
  answer : v.1 = (b.visited visitor state threadRoots).1
  sources : v.2.1.sources = b.sources
  references : ∀ s, v.2.1.references s = (b.visited visitor state threadRoots).2 (.source s)
  threads : v.2.2.map .wide = (b.visited visitor state threadRoots).2 .threads
  /-- A place holds what the visitor gave where it came to the place last, for what it saw there: what the place held
  before the visit, unless the visitor had come to it already. -/
  written : ∀ pre p post, b.places threadRoots = pre ++ p :: post → p ∉ post →
    let q := pre.foldl (touch visitor) (state, b.held threadRoots)
    ∃ x, look q.2 p = some x ∧ (p ∉ pre → look (b.held threadRoots) p = some x) ∧
      look (b.visited visitor state threadRoots).2 p = some (x.refill (visitor q.1 x).2)
  /-- All others hold what they held. -/
  spared : ∀ p, p ∉ b.places threadRoots → look (b.visited visitor state threadRoots).2 p = look (b.held threadRoots) p
  widths : ∀ o, ((b.visited visitor state threadRoots).2 o).map Reference.isWide =
    (b.held threadRoots o).map Reference.isWide
  /-- Every clone sees the change, -/
  handles : ∀ id i, v.2.1.get id i = (look (b.visited visitor state threadRoots).2 ⟨.source (.table id), i⟩).map
    Reference.content
  /-- and so does the next enumeration, which goes to the same places. -/
  next : v.2.1.enumerate v.2.2 = (owners b.sources).flatMap (b.visited visitor state threadRoots).2
  again : (b.after visitor state threadRoots).places v.2.2 = b.places threadRoots

variable {σ : Type} {visitor : σ → Reference → σ × Nat} {state : σ} {r r' : Roots} {b : Book} {threadRoots : List Address}

/-! ## The order of the sources -/

theorem count_filter_kind (l : List (RootKind × RootSource)) (s : RootKind × RootSource) (kind : RootKind) :
    (l.filter (·.1 == kind)).count s = if s.1 = kind then l.count s else 0 := by
  by_cases h : s.1 = kind
  · rw [if_pos h, List.count_filter (by simpa using h)]
  · rw [if_neg h, List.count_eq_zero]
    intro hs
    exact h (by simpa using (List.mem_filter.1 hs).2)

theorem agenda_perm (sources : List (RootKind × RootSource)) : (agenda sources).Perm sources := by
  rw [List.perm_iff_count]
  intro s
  simp only [agenda, RootKind.order, List.flatMap_cons, List.flatMap_nil, List.count_append, List.count_nil,
    count_filter_kind]
  cases s.1 <;> simp

theorem agenda_grouped (sources : List (RootKind × RootSource)) :
    (agenda sources).Pairwise fun s t => s.1.rank ≤ t.1.rank := by
  have hkind {kind : RootKind} {s : RootKind × RootSource} (hs : s ∈ sources.filter (·.1 == kind)) : s.1 = kind := by
    simpa using (List.mem_filter.1 hs).2
  have horder : RootKind.order.Pairwise fun kind kind' => kind.rank ≤ kind'.rank := by decide
  unfold agenda
  rw [List.pairwise_flatMap]
  constructor
  · intro kind _
    refine List.pairwise_of_forall_mem_list fun s hs t ht => Nat.le_of_eq ?_
    rw [hkind hs, hkind ht]
  · refine horder.imp fun hle s hs t ht => ?_
    rwa [hkind hs, hkind ht]

theorem agenda_filter (sources : List (RootKind × RootSource)) (kind : RootKind) :
    (agenda sources).filter (·.1 == kind) = sources.filter (·.1 == kind) := by
  have hfilter (kind' : RootKind) : (sources.filter (·.1 == kind')).filter (·.1 == kind) =
      if kind' = kind then sources.filter (·.1 == kind) else [] := by
    by_cases h : kind' = kind
    · rw [if_pos h, h, List.filter_filter]
      simp only [Bool.and_self]
    · rw [if_neg h, List.filter_eq_nil_iff]
      intro s hs hs'
      exact h ((by simpa using (List.mem_filter.1 hs).2 : s.1 = kind').symm.trans (by simpa using hs'))
  unfold agenda
  rw [List.filter_flatMap]
  simp only [hfilter]
  cases kind <;> simp [RootKind.order]

/-! ## The roots agree with the book -/

/-- **The roots are as their book has them.** -/
structure Agrees (r : Roots) (b : Book) : Prop where
  sources : r.sources = b.sources
  references : r.references = b.contents
  tables : r.tables.size = b.tables
  fixed : r.fixed.size = b.fixed

theorem Agrees.contents (h : r.Agrees b) (threadRoots : List Address) : r.contents threadRoots = b.held threadRoots := by
  funext o
  cases o with
  | source s => exact congrFun h.references s
  | threads => rfl

theorem Agrees.view_visit (h : r.Agrees b) (visitor : σ → Reference → σ × Nat) (state : σ) (threadRoots : List Address) :
    view (visit visitor state r threadRoots) = b.visited visitor state threadRoots := by
  rw [(visit_view visitor state r threadRoots).1, h.contents, h.sources]
  rfl

theorem Agrees.visit (h : r.Agrees b) (visitor : σ → Reference → σ × Nat) (state : σ) (threadRoots : List Address) :
    (Roots.visit visitor state r threadRoots).2.1.Agrees (b.after visitor state threadRoots) := by
  obtain ⟨-, hshape⟩ := visit_view visitor state r threadRoots
  refine ⟨hshape.sources.trans h.sources, ?_, hshape.tables.trans h.tables, hshape.fixed.trans h.fixed⟩
  funext s
  exact congrFun (congrArg Prod.snd (h.view_visit visitor state threadRoots)) (.source s)

theorem Agrees.modify {id : TableId} (h : r.Agrees b) (known : id < b.tables) (f : HandleTable → HandleTable)
    {l : List Reference} (hl : (f (r.table id)).toList.map .wide = l) :
    ({ r with tables := r.tables.modify id f } : Roots).Agrees (b.update (.table id) l) := by
  refine ⟨h.sources, ?_, Array.size_modify.trans h.tables, h.fixed⟩
  rw [references_modify (h.tables ▸ known), hl, h.references]
  rfl

theorem Agrees.table (h : r.Agrees b) (id : TableId) : (r.table id).toList.map .wide = b.contents (.table id) :=
  congrFun h.references (.table id)

/-- **Every registration, every update and every visit does to the roots what it does to the book.** -/
theorem Kept.agrees (h : Kept r b) : r.Agrees b := by
  induction h with
  | empty =>
    refine ⟨rfl, ?_, rfl, rfl⟩
    funext s
    cases s <;> rfl
  | @newTable r b _ ih =>
    refine ⟨ih.sources, ?_, (Array.size_push _).trans (congrArg (· + 1) ih.tables), ih.fixed⟩
    rw [← ih.references]
    funext s
    cases s with
    | table id =>
      -- a table nobody made reads as an empty one
      have hpush : (r.tables.push #[])[id]?.getD #[] = r.tables[id]?.getD #[] := by
        rw [Array.getElem?_push]
        split
        · next hid => rw [hid, Array.getElem?_eq_none (Nat.le_refl _)]; rfl
        · rfl
      exact congrArg (fun t => t.toList.map Reference.wide) hpush
    | slots id => rfl
  | registerTable _ kind _ ih => exact ⟨congrArg (· ++ _) ih.sources, ih.references, ih.tables, ih.fixed⟩
  | @registerSlots r b _ kind s ih =>
    have hpush (j : Nat) : (r.fixed.push s)[j]?.getD .empty = if r.fixed.size = j then s else r.fixed[j]?.getD .empty := by
      rw [Array.getElem?_push]
      simp only [eq_comm]
      split <;> rfl
    refine ⟨?_, ?_, ih.tables, (Array.size_push _).trans (congrArg (· + 1) ih.fixed)⟩
    · show r.sources ++ [(kind, .slots r.fixed.size)] = _
      rw [ih.sources, ih.fixed]
    · refine (references_of_fixed hpush _).trans ?_
      rw [ih.references, ih.fixed]
      rfl
  | push _ known a ih =>
    refine ih.modify known _ ?_
    rw [Array.toList_push, List.map_append, ih.table]
    rfl
  | set _ known i a ih =>
    refine ih.modify known _ ?_
    rw [Array.toList_setIfInBounds, List.map_set, ih.table]
  | release _ known i ih =>
    refine ih.modify known _ ?_
    rw [Array.toList_setIfInBounds, List.map_set, ih.table]
    rfl
  | clear _ known ih =>
    refine ⟨ih.sources, ?_, Array.size_setIfInBounds.trans ih.tables, ih.fixed⟩
    rw [Roots.clear, references_setTable (.inr rfl), ih.references]
    rfl
  | visit _ visitor state threadRoots ih => exact ih.visit visitor state threadRoots

/-! ## Enumerations -/

/-- A handle reads as what the sources show of its table. -/
theorem get_eq (r : Roots) (id : TableId) (i : Nat) :
    r.get id i = ((r.references (.table id))[i]?).map Reference.content := by
  rw [get, references, List.getElem?_map, Option.map_map, Array.getElem?_toList]
  exact Option.map_id.symm ▸ rfl

theorem Agrees.enumeration (h : r.Agrees b) : r.Enumerates b := by
  constructor
  case sources => exact h.sources
  case references => exact h.references
  case handles => exact fun id i => h.references ▸ get_eq r id i
  case once => exact agenda_perm b.sources
  case grouped => exact agenda_grouped b.sources
  case stable => exact agenda_filter b.sources
  case listed =>
    intro threadRoots
    rw [enumerate_eq, h.contents, h.sources, owners, List.flatMap_append, List.flatMap_map, List.flatMap_singleton]
    rfl
  case seen =>
    intro threadRoots
    rw [visit_read, List.foldl_append_eq_append, List.nil_append, ← List.flatMap_def, List.flatMap_singleton']

theorem Agrees.writesThrough (h : r.Agrees b) (visitor : σ → Reference → σ × Nat) (state : σ) (threadRoots : List Address) :
    b.WritesThrough visitor state threadRoots (Roots.visit visitor state r threadRoots) := by
  have hview := h.view_visit visitor state threadRoots
  have hafter := h.visit visitor state threadRoots
  have hcontents := congrArg Prod.snd hview
  have hwidths (o : RootOwner) := widths_foldl visitor (b.places threadRoots) (state, b.held threadRoots) o
  constructor
  case answer => exact congrArg Prod.fst hview
  case sources => exact hafter.sources
  case references => exact fun s => congrFun hafter.references s
  case threads => exact congrFun hcontents .threads
  case written =>
    intro pre p post hps hp
    obtain ⟨x, hx, hlast⟩ := look_last hps hp
    exact ⟨x, hx, fun hpre => (look_foldl_of_not_mem hpre _).symm.trans hx, hlast⟩
  case spared => exact fun p hp => look_foldl_of_not_mem hp _
  case widths => exact hwidths
  case handles =>
    intro id i
    rw [get_eq, hafter.references]
    rfl
  case next =>
    rw [enumerate_eq, hafter.sources]
    exact congrArg (List.flatMap · (owners b.sources)) hcontents
  case again =>
    have hheld : (b.after visitor state threadRoots).held (Roots.visit visitor state r threadRoots).2.2 =
        (b.visited visitor state threadRoots).2 := (hafter.contents _).symm.trans hcontents
    rw [Book.places, hheld]
    exact places_congr (length_foldl _ _) _

/-- **Roots are enumerated completely, in order, and written through**, whatever was registered, whatever was done to the
tables, and whatever visitors stored before. -/
theorem Kept.enumerates (h : Kept r b) : r.Enumerates b ∧ ∀ {σ : Type} (visitor : σ → Reference → σ × Nat) (state : σ)
    (threadRoots : List Address), b.WritesThrough visitor state threadRoots (Roots.visit visitor state r threadRoots) :=
  ⟨h.agrees.enumeration, fun visitor state threadRoots => h.agrees.writesThrough visitor state threadRoots⟩

/-- A visitor that counts the slots and moves every address by a word. -/
def moveByWord (n : Nat) : Reference → Nat × Nat
  | .wide a => (n + 1, a + wordBytes)
  | .narrow m => (n + 1, m)

/-- A table is a source twice, with a released handle; the addresses in it are moved twice, the others once, and the narrow
reference stays. -/
theorem exists_enumerated : ∃ r b, Kept r b ∧ r.Enumerates b ∧
    r.enumerate [12288] = [.wide 16384, .narrow 5, .wide 4096, .wide 0, .wide 4096, .wide 0, .wide 12288] ∧
    b.WritesThrough moveByWord 0 [12288] (Roots.visit moveByWord 0 r [12288]) ∧
    (Roots.visit moveByWord 0 r [12288]).2.1.get 0 0 = some 4112 ∧
    (Roots.visit moveByWord 0 r [12288]).2.1.enumerate [12296] =
      [.wide 16392, .narrow 5, .wide 4112, .wide 16, .wide 4112, .wide 16, .wide 12296] := by
  have h₁ : Kept _ _ := Kept.empty.newTable.newTable
  have h₂ := h₁.registerTable .threads (by decide : 0 < 2)
  have h₃ := h₂.registerTable .codeCache (by decide : 1 < 2)
  have h₄ := h₃.registerTable .globalHandles (by decide : 0 < 2)
  have h₅ := h₄.registerSlots .classLoaderGraph ⟨#[], #[5]⟩
  have h₆ := h₅.push (by decide : 0 < 2) 4096
  have h₇ := h₆.push (by decide : 0 < 2) 8192
  have h₈ := h₇.push (by decide : 1 < 2) 16384
  have h₉ := h₈.release (by decide : 0 < 2) 1
  obtain ⟨henumerates, hwrites⟩ := h₉.enumerates
  exact ⟨_, _, h₉, henumerates, rfl, hwrites moveByWord 0 [12288], rfl, rfl⟩

end Roots
end MarkSweep
