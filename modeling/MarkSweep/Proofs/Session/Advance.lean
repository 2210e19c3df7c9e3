import MarkSweep.Proofs.Heap.Owners
import MarkSweep.Proofs.Session.Invariant
/-!
# Heap operations keep the invariant of a session

Every operation of the heap runs one cycle or none (`Inv.pass`), then carries the objects that are left (`Inv.carry`), and
may grant one more (`Inv.grant`), which joins the objects from before without touching them (`Inv.holds_joined`).
-/
namespace MarkSweep
namespace Session

variable {s : Session} {h h' h₁ : Heap} {ts ts' ts₁ : List Tile} {o : Grant} {k n : Nat}

/-! ## What is left and what was handed out -/

theorem left_of_eq (hc : h'.collections = h.collections) (objects : List Grant) : left h h' objects = objects := if_pos hc

theorem mem_left_of_ne (hc : h'.collections ≠ h.collections) {objects : List Grant} :
    o ∈ left h h' objects ↔ o ∈ objects ∧ h.Live o.start := by
  simp only [left, if_neg hc, List.mem_filter, decide_eq_true_eq]

theorem left_sublist (h h' : Heap) (objects : List Grant) : (left h h' objects).Sublist objects := by
  unfold left
  split
  · exact .refl _
  · exact List.filter_sublist

theorem installed_eq_nil {r r' : TlabRegistry} (h : ∀ id, (r'.get id).refills = (r.get id).refills) : installed r r' = [] := by
  unfold installed
  rw [List.filter_eq_nil_iff.2, List.map_nil]
  intro id _
  rw [h, decide_eq_true_iff]
  exact Nat.lt_irrefl _

theorem mem_installed {r r' : TlabRegistry} {x : Region} (hx : x ∈ installed r r') :
    ∃ id, (r.get id).refills < (r'.get id).refills ∧ x = ⟨(r'.get id).start, (r'.get id).stop⟩ := by
  obtain ⟨id, hid, rfl⟩ := List.mem_map.1 hx
  exact ⟨id, by simpa using (List.mem_filter.1 hid).2, rfl⟩

/-- Two operations in a row, of which the first installs nothing and the second runs no cycle, are one. -/
theorem after_after (hc : h'.collections = h₁.collections)
    (hr : ∀ id, (h₁.tlabs.get id).refills = (s.heap.tlabs.get id).refills) : (s.after h₁).after h' = s.after h' := by
  have hleft : left h₁ h' (left s.heap h₁ s.objects) = left s.heap h' s.objects := by
    rw [left_of_eq hc]
    unfold left
    rw [hc]
  have hinst : installed h₁.tlabs h'.tlabs = installed s.heap.tlabs h'.tlabs := by
    unfold installed
    simp only [hr]
  unfold after
  simp only [hleft, hinst, installed_eq_nil hr, List.append_nil]

/-- The session once the program has one more object. -/
def join (s : Session) (o : Grant) (shadow : Memory) : Session :=
  { s with objects := s.objects ++ [o], shadow, handed := s.handed ++ [⟨o.start, o.start + s.extent o.words⟩] }

theorem granted_eq (hg : s.heap.space.SameGrid h'.space) (a : Address) (words : Nat) (layout : Option Layout)
    (f : Memory → Memory) : s.granted h' a words layout f =
      (s.after h').join ⟨a, words, layout, (s.after h').handed.length + 1⟩ (f s.shadow) := by
  simp only [granted, join, after, extent, hg.granulesFor, hg.granuleBytes, List.length_append, List.length_cons,
    List.length_nil]

namespace Inv

/-! ## Any operation -/

theorem advance (hi : s.Inv ts) (hs' : h'.Sound ts') (hset : Settled ts') (hf : s.heap.SameFrame h')
    (hkeep : ∀ o ∈ left s.heap h' s.objects, ∀ t ∈ ts, t.kind = .object → o.start = s.heap.space.address t.first →
      t ∈ ts' ∧ s.heap.memory.SameOn h'.memory (s.heap.space.wordAt t.first) (s.heap.space.wordAt t.stop))
    (htarget : ∀ o ∈ left s.heap h' s.objects, ∀ a, PointsTo s.heap.memory s.heap.encoding o.start a →
      (s.after h').IsObject a)
    (hinst : ∀ o ∈ left s.heap h' s.objects, ∀ r ∈ installed s.heap.tlabs h'.tlabs, s.Clear o r)
    (hroots : h'.Rooted (s.after h').IsObject)
    (hext : ∀ id ∈ s.externals, id ∈ h'.tlabs.registered ∧ ∀ m ∈ h'.mutators, m.tlab ≠ id) : (s.after h').Inv ts' := by
  have hsub := left_sublist s.heap h' s.objects
  refine ⟨hs', hset, ?_, hi.distinct.sublist (hsub.map _), hroots, hext, by rw [after, hf.grid.1]; exact hi.small⟩
  intro o ho
  refine (hi.objects o (hsub.subset ho)).transport hi.sound.mapped.tiled hf.grid hf.encoding (?_)
    (htarget o ho) rfl (hinst o ho)
  intro t ht hk hst
  obtain ⟨h1, h2⟩ := hkeep o ho t ht hk hst
  exact ⟨h1, h2, .refl _ _ _⟩

/-- A root of a sound heap that leads to a live object leads to an object that is left. -/
theorem isObject_of_live (hi : s.Inv ts) {a : Address} (ha : s.heap.Live a) : s.IsObject a := hi.roots.of_live hi.closed ha

/-- **An operation that runs no cycle.** -/
theorem carry (hi : s.Inv ts) (hs' : h'.Sound ts') (hset : Settled ts') (hc : s.heap.Carries ts h' ts')
    (hinst : s.heap.Installs ts h') (hroots : ∀ r ∈ h'.rootReferences, r ∈ s.heap.rootReferences)
    (hext : ∀ id ∈ s.externals, id ∈ h'.tlabs.registered ∧ ∀ m ∈ h'.mutators, m.tlab ≠ id) : (s.after h').Inv ts' := by
  have hleft : (s.after h').objects = s.objects := left_of_eq hc.collections _
  have hobject : (s.after h').IsObject = s.IsObject := by
    unfold IsObject
    rw [hleft]
  have hsame : left s.heap h' s.objects = s.objects := hleft
  refine hi.advance hs' hset hc.frame (fun o _ t ht hk _ => hc.keeps t ht hk) (?_) (?_)
    (?_) hext
  · intro o ho a hp
    rw [hobject]
    rw [hsame] at ho
    exact hi.closed.pointsTo ⟨o, ho, rfl⟩ hp
  · intro o ho r hr
    rw [hsame] at ho
    obtain ⟨id, hlt, rfl⟩ := mem_installed hr
    obtain ⟨k, n, hstart, hstop, hap⟩ := hinst id hlt
    rw [hstart, hstop]
    exact (hi.objects o ho).clear_of_apart hi.sound.mapped.tiled.toRegular hap
  · intro r hr
    rw [hobject, hc.frame.encoding]
    exact hi.roots r (hroots r hr)

theorem rootReferences_eq (hf : h.SameFrame h') (hm : h'.mutators = h.mutators) : h'.rootReferences = h.rootReferences := by
  unfold Heap.rootReferences
  rw [hf.roots, hm]

/-- **A cycle, or none.** -/
theorem pass {id : Option MutatorId} {cause : Cause} (hi : s.Inv ts) (hp : s.heap.Passes ts id cause h₁ ts₁)
    (hs : h₁.Sound ts₁) (hset : Settled ts₁) : (s.after h₁).Inv ts₁ := by
  have hext : ∀ id ∈ s.externals, id ∈ h₁.tlabs.registered ∧ ∀ m ∈ h₁.mutators, m.tlab ≠ id := by
    intro id hid
    rw [hp.registered.1, hp.mutators.1]
    exact hi.externals id hid
  have hrefs := rootReferences_eq hp.frame hp.mutators.1
  rcases hp with ⟨hun, rfl⟩ | ⟨stats, -, hcol⟩
  · refine hi.carry hs hset ⟨?_, hun.frame, hun.collections, hun.lastCycle⟩ (?_) (fun r hr => hrefs ▸ hr) hext
    · rw [hun.memory]
      exact .refl _ _ _
    · intro id hlt
      rw [hun.tlabs] at hlt
      exact absurd hlt (Nat.lt_irrefl _)
  · have hne : h₁.collections ≠ s.heap.collections := by
      rw [hcol.collections]
      exact Nat.succ_ne_self _
    have hleft {o : Grant} : o ∈ left s.heap h₁ s.objects ↔ o ∈ s.objects ∧ s.heap.Live o.start := mem_left_of_ne hne
    have hlive {a : Address} (ha : s.heap.Live a) : (s.after h₁).IsObject a := by
      obtain ⟨o, ho, rfl⟩ := hi.isObject_of_live ha
      exact ⟨o, hleft.2 ⟨ho, ha⟩, rfl⟩
    refine hi.advance hs hset hcol.frame (?_) (?_) (?_)
      (?_) hext
    · intro o ho t ht hk hst
      have hmem := (hcol.live t hk).2 ⟨ht, hst ▸ (hleft.1 ho).2⟩
      exact ⟨hmem, hcol.kept t hmem hk⟩
    · intro o ho a hpt
      exact hlive (.step (hleft.1 ho).2 hpt)
    · intro o ho r hr
      rw [installed_eq_nil hcol.refills] at hr
      cases hr
    · intro r hr
      obtain ⟨a, ha, ha'⟩ := hi.roots r (hrefs ▸ hr)
      refine ⟨a, by rw [hcol.frame.encoding]; exact ha, ?_⟩
      by_cases ha0 : a = 0
      · exact .inl ha0
      · exact .inr (hlive (.root (Heap.mem_rootTargets.2 ⟨r, hrefs ▸ hr, ha⟩) ha0))

/-! ## A new object -/

/-- **An object keeps its place** beside a new one in another tile. -/
theorem holds_beside (hi : s.Inv ts) {p : Grant} (hp : p ∈ s.objects) (hstart : o.start = s.heap.space.address k)
    (hmem : (⟨.object, k, s.heap.space.granulesFor o.words⟩ : Tile) ∈ ts) (hne : p.start ≠ o.start) {shadow : Memory}
    (hbut : s.shadow.SameBut shadow (s.heap.space.wordAt k) (s.heap.space.wordAt (k + s.heap.space.granulesFor o.words))) :
    (s.join o shadow).Holds ts p := by
  have hs := hi.sound.mapped.tiled
  have hold := hi.objects p hp
  obtain ⟨i, hi', hstart'⟩ := hold.tile
  have hap := hs.tiling.apart hi' hmem fun he => hne (by
    injection he with _ hfirst
    rw [hstart, hstart', hfirst])
  refine hold.transport hs (.refl _) rfl (fun t ht hk hst => ⟨ht, .refl _ _ _, ?_⟩) (fun a ha => ?_) rfl fun r hr => ?_
  · obtain rfl := hs.tiling.eq_of_first ht hi' (hs.address_inj.1 (hst.symm.trans hstart'))
    rcases hap with hap | hap
    · exact hbut.sameOn (.inr (s.heap.space.wordAt_mono hap))
    · exact hbut.sameOn (.inl (s.heap.space.wordAt_mono hap))
  · obtain ⟨q, hq, rfl⟩ := hi.closed.pointsTo ⟨p, hp, rfl⟩ ha
    exact ⟨q, List.mem_append_left _ hq, rfl⟩
  · obtain rfl := List.mem_singleton.1 hr
    unfold Clear
    rw [Holds.stop_eq hstart', Holds.stop_eq hstart, hstart, hstart']
    rcases hap with hap | hap
    · exact .inr (hs.address_le.2 hap)
    · exact .inl (hs.address_le.2 hap)

/-- **The new object** has null references and the words that were written with it. -/
theorem holds_joined (hi : s.Inv ts) {size refs flags : Nat} (hstart : o.start = s.heap.space.address k)
    (hmem : (⟨.object, k, s.heap.space.granulesFor o.words⟩ : Tile) ∈ ts) {m : Memory}
    (hm : s.heap.memory = Object.write m o.start size refs flags) (hpos : 0 < size) (hwords : o.words ≤ size)
    (hsince : o.since = s.handed.length + 1) (hheader : Object.header s.heap.memory o.start = s.headerOf o)
    (hfits : ∀ l, o.layout = some l → l.Fits o.words) :
    (s.join o (Object.write s.shadow o.start size refs flags)).Holds ts o := by
  have hdvd : wordBytes ∣ o.start := hstart ▸ hi.sound.mapped.tiled.wordBytes_dvd_address k
  have hlink : Object.linkWords s.heap.memory o.start ≤ size := by
    rw [linkWords_of_header hheader]
    unfold Grant.payload
    cases hl : o.layout with
    | none => exact hpos
    | some l => exact Nat.le_trans (hfits l hl).2 hwords
  constructor
  case tile => exact ⟨k, hmem, hstart⟩
  case header => exact hheader
  case fits => exact hfits
  case slots =>
    intro sl hsl
    unfold join at hsl ⊢
    simp only [hm] at hsl hlink ⊢
    exact ⟨0, Object.load_of_write hdvd hlink _ hsl, .inl rfl⟩
  case words =>
    intro j hj
    unfold join
    simp only [hm]
    exact Object.word_write_eq _ _ _ _ _ (Nat.lt_of_lt_of_le hj hwords)
  case since => simp [join, hsince]
  case clear =>
    intro r hr
    unfold join at hr
    rw [List.drop_eq_nil_of_le (by simp [hsince])] at hr
    cases hr

/-- **Words in an object tile of their own become an object** of the program. -/
theorem grant (hi : s.Inv ts) {size refs flags : Nat} (hstart : o.start = s.heap.space.address k)
    (hmem : (⟨.object, k, s.heap.space.granulesFor o.words⟩ : Tile) ∈ ts) (hfree : ∀ p ∈ s.objects, p.start ≠ o.start)
    {m : Memory} (hm : s.heap.memory = Object.write m o.start size refs flags) (hpos : 0 < size) (hwords : o.words ≤ size)
    (hsize : size ≤ s.heap.space.granulesFor o.words * s.heap.space.granuleWords)
    (hsince : o.since = s.handed.length + 1) (hheader : Object.header s.heap.memory o.start = s.headerOf o)
    (hfits : ∀ l, o.layout = some l → l.Fits o.words) :
    (s.join o (Object.write s.shadow o.start size refs flags)).Inv ts := by
  have hs := hi.sound.mapped.tiled
  refine ⟨hi.sound, hi.settled, fun p hp => ?_, ?_, fun r hr => ?_, hi.externals, hi.small⟩
  · rcases List.mem_append.1 hp with hp | hp
    · refine hi.holds_beside hp hstart hmem (hfree p hp) ?_
      rw [s.heap.space.wordAt_add, ← hs.address_div_eq, ← hstart]
      exact Object.sameBut_write _ _ _ (Nat.mul_pos (hs.count_pos hmem) hs.granule_pos) hsize
    · rw [List.mem_singleton.1 hp]
      exact hi.holds_joined hstart hmem hm hpos hwords hsince hheader hfits
  · unfold join
    rw [List.map_append, List.map_cons, List.map_nil, ← List.concat_eq_append]
    refine hi.distinct.concat fun hmem => ?_
    obtain ⟨p, hp, he⟩ := List.mem_map.1 hmem
    exact hfree p hp he
  · obtain ⟨a, ha, hobj⟩ := hi.roots r hr
    refine ⟨a, ha, hobj.imp_right ?_⟩
    rintro ⟨p, hp, rfl⟩
    exact ⟨p, List.mem_append_left _ hp, rfl⟩

end Inv
end Session
end MarkSweep
