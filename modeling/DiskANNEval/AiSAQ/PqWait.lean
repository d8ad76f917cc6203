import DiskANNEval.AiSAQ.PqSubmit

/-!
# PqWait — collecting the completions of a batch

`Serving` is what holds between the calls of `read_pq_vectors_wait_completion`: each id of the batch
has been handed back, waits to be, or is in the chain of one read in flight.  `wait_spec` says the
same of both readers, for every choice of completions, and how many ids a call hands back.
-/

namespace DiskANNEval.AiSAQ.PqReader

open Lib List

variable {B : Type} {r : Reader} {file : ℕ → B} {ids : List ℕ} {iocbs : List Iocb}
  {chain : ℕ → List ℕ} {c c' : Context B} {x : ℕ}

/-- The bytes of its sectors are in a node of the page cache. -/
def PageRead (r : Reader) (file : ℕ → B) (mem : ℕ → ℕ → B) (node : PageCacheNode) : Prop :=
  ∃ id, (r.calcPqVectorReadParams id).fromSector / r.rearrangedPqSectorsPerPage = node.pageId ∧
    ∀ k < r.rearrangedPqSectorsPerPage * sectorSize,
      mem node.buff k = file ((r.calcPqVectorReadParams id).fromSector * sectorSize + k)

/-- `D` has been handed back. -/
structure Serving (r : Reader) (file : ℕ → B) (ids : List ℕ) (iocbs : List Iocb)
    (chain : ℕ → List ℕ) (D : List Handed) (c : Context B) : Prop where
  batch : BatchOk r ids ids.length c iocbs chain
  count : c.ioDataCount = ids.length
  cover : ∀ x < ids.length, c.hit x ∨ ∃ cb ∈ iocbs, x ∈ chain cb.data
  inFlight : c.inFlight.Sublist iocbs
  once : (D.map Handed.index ++ (c.completionEvents ++
    (c.inFlight.map Iocb.data).flatMap chain)).Perm (List.range ids.length)
  handed : ∀ d ∈ D, d = c.handed d.index
  read : ∀ cb ∈ iocbs, cb ∉ c.inFlight → ∀ k < cb.len, c.mem cb.buff k = file (cb.offset + k)
  pages : ∀ node ∈ c.lruList, PageRead r file c.mem node

/-! ### The chain of a completed read -/

theorem walk_eq {maxEvents fuel i : ℕ} {l : List ℕ} {out : List Handed} {events : List ℕ}
    (hl : Linked c.next i l) (hfuel : l.length ≤ fuel) (hindex : ∀ x ∈ l, (c.ioData x).vectorIndex = x) :
    walk c maxEvents fuel i out events =
      some (out ++ (l.take (maxEvents - out.length)).map c.handed,
        (l.drop (maxEvents - out.length)).reverse ++ events) := by
  induction hl generalizing fuel out events with
  | last hnone =>
    rename_i i
    obtain ⟨fuel, rfl⟩ : ∃ f, fuel = f + 1 := ⟨fuel - 1, by simp at hfuel; omega⟩
    have hi := hindex i mem_cons_self
    have hnone : (c.ioData i).hooked = none := hnone
    rw [walk]
    by_cases hlt : out.length < maxEvents
    · obtain ⟨n, hn⟩ : ∃ n, maxEvents - out.length = n + 1 := ⟨maxEvents - out.length - 1, by omega⟩
      simp [hlt, hnone, hn]
    · simp [hlt, hnone, hi, Nat.sub_eq_zero_of_le (Nat.le_of_not_lt hlt)]
  | cons hsome hl ih =>
    rename_i i j l
    obtain ⟨fuel, rfl⟩ : ∃ f, fuel = f + 1 := ⟨fuel - 1, by simp at hfuel; omega⟩
    have hi := hindex i mem_cons_self
    have hsome : (c.ioData i).hooked = some j := hsome
    have hfuel' : l.length ≤ fuel := by simpa using hfuel
    have hindex' := fun x hx => hindex x (mem_cons_of_mem i hx)
    rw [walk]
    by_cases hlt : out.length < maxEvents
    · obtain ⟨n, hn⟩ : ∃ n, maxEvents - out.length = n + 1 := ⟨maxEvents - out.length - 1, by omega⟩
      have hn' : maxEvents - (out ++ [c.handed i]).length = n := by
        rw [length_append, length_singleton]
        omega
      simp only [hlt, if_true, hsome, ih hfuel' hindex', hn, hn', take_succ_cons,
        drop_succ_cons, map_cons, append_assoc, singleton_append]
    · have h0 : maxEvents - out.length = 0 := Nat.sub_eq_zero_of_le (Nat.le_of_not_lt hlt)
      simp only [hlt, if_false, hsome, ih hfuel' hindex', h0, hi]
      simp

namespace Serving

variable {D : List Handed}

theorem nodup (h : Serving r file ids iocbs chain D c) :
    (D.map Handed.index ++ (c.completionEvents ++
      (c.inFlight.map Iocb.data).flatMap chain)).Nodup :=
  h.once.nodup_iff.2 nodup_range

theorem length_eq (h : Serving r file ids iocbs chain D c) :
    D.length + (c.completionEvents.length + ((c.inFlight.map Iocb.data).flatMap chain).length) =
      ids.length := by
  have := h.once.length_eq
  simpa only [length_append, length_map, length_range] using this

theorem lt (h : Serving r file ids iocbs chain D c)
    (hx : x ∈ D.map Handed.index ++ (c.completionEvents ++
      (c.inFlight.map Iocb.data).flatMap chain)) : x < ids.length :=
  List.mem_range.1 (h.once.mem_iff.1 hx)

theorem ok (h : Serving r file ids iocbs chain D c) (hx : x < ids.length) :
    (c.ioData x).Ok r x ids[x] :=
  h.batch.params x _ (getElem?_eq_getElem hx) (.inr hx)

theorem mem_root (h : Serving r file ids iocbs chain D c) {cb : Iocb} (hcb : cb ∈ c.inFlight) :
    cb.data ∈ iocbs.map Iocb.data :=
  mem_map_of_mem (h.inFlight.subset hcb)

theorem mem_inFlight (_ : Serving r file ids iocbs chain D c) {cb : Iocb} (hcb : cb ∈ c.inFlight)
    (hx : x ∈ chain cb.data) : x ∈ (c.inFlight.map Iocb.data).flatMap chain :=
  mem_flatMap.2 ⟨cb.data, mem_map_of_mem hcb, hx⟩

theorem iocb_unique (h : Serving r file ids iocbs chain D c) {cb cb' : Iocb} (hcb : cb ∈ iocbs)
    (hcb' : cb' ∈ iocbs) (hdata : cb.data = cb'.data) : cb = cb' :=
  inj_on_of_nodup_map h.batch.roots_nodup hcb hcb' hdata

theorem bytes (h : Serving r file ids iocbs chain D c)
    (hx : x ∈ D.map Handed.index ++ c.completionEvents) {id : ℕ} (hid : ids[x]? = some id) {k : ℕ}
    (hk : k < r.pqVectorSize) :
    c.mem (c.ioData x).buff ((c.ioData x).buffOffset + k) = file (r.vectorPos id + k) := by
  have hlt : x < ids.length := h.lt (by
    rw [← append_assoc]
    exact mem_append_left _ hx)
  have hok := h.batch.params x id hid (.inr hlt)
  have hcover := r.buffOffset_add_le id
  have hpos := r.buffOffset_spec id
  obtain hhit | ⟨cb, hcb, hxc⟩ := h.cover x hlt
  · have hr := h.batch.cache.rearranged hhit.1
    obtain ⟨id', hpage, hread⟩ := h.pages _ (h.batch.hits x hlt hhit).1
    have hfrom := (r.readParams_of_page id' id hr (by
      rw [hpage, Context.nodeOf, pageId, hok.fromSector])).1
    rw [r.readSectors_rearranged id hr] at hcover
    have := hread ((c.ioData x).buffOffset + k) (by rw [hok.buffOffset]; omega)
    rw [hfrom] at this
    rw [show (c.nodeOf r x).buff = (c.ioData x).buff from rfl] at this
    rw [this, ← hpos, hok.buffOffset, Nat.add_assoc]
  · obtain ⟨hsf, hst, hsb⟩ := h.batch.shared cb hcb x hxc
    obtain ⟨hoff, hlen⟩ := h.batch.iocb cb hcb
    have hnot : cb ∉ c.inFlight := by
      intro hfl
      have hn := h.nodup
      rw [← append_assoc] at hn
      exact (nodup_append.1 hn).2.2 x hx x (h.mem_inFlight hfl hxc) rfl
    have hle : r.readSectors id * sectorSize ≤ cb.len := by
      rw [hlen, Reader.readSectors, ← hok.fromSector, ← hok.toSector]
      exact Nat.mul_le_mul_right _ (by omega)
    rw [hsb, h.read cb hcb hnot _ (by rw [hok.buffOffset]; omega), hoff, ← hsf, hok.fromSector,
      hok.buffOffset, ← hpos, Nat.add_assoc]

end Serving

/-! ### One completion -/

theorem BatchOk.collect {i : ℕ} (h : BatchOk r ids i c iocbs chain)
    (pendingIoCount ioDataCount : ℕ) (completionEvents : List ℕ) (inFlight : List Iocb)
    (mem : ℕ → ℕ → B) : BatchOk r ids i
      { c with pendingIoCount, ioDataCount, completionEvents, inFlight, mem } iocbs chain :=
  ⟨⟨h.cache.cached, h.cache.pages, h.cache.off, h.cache.rearranged⟩, h.owners, h.params, h.roots,
    h.linked, h.shared, h.iocb, h.hits, h.fresh, h.distinct⟩

theorem BatchOk.owners_nodup {i : ℕ} (h : BatchOk r ids i c iocbs chain) :
    (c.idleBuffers ++ iocbs.map Iocb.buff).Nodup :=
  h.owners.nodup_iff.2 nodup_range

theorem BatchOk.node_buff_ne {i : ℕ} (h : BatchOk r ids i c iocbs chain) {node : PageCacheNode}
    (hnode : node ∈ c.lruList) {cb : Iocb} (hcb : cb ∈ iocbs) : node.buff ≠ cb.buff :=
  (nodup_append.1 h.owners_nodup).2.2 _
    (mem_append_right _ (mem_map_of_mem hnode)) _ (mem_map_of_mem hcb)

theorem BatchOk.buff_ne {i : ℕ} (h : BatchOk r ids i c iocbs chain) {cb cb' : Iocb} (hcb : cb ∈ iocbs)
    (hcb' : cb' ∈ iocbs) (hne : cb ≠ cb') : cb.buff ≠ cb'.buff := fun he =>
  hne (inj_on_of_nodup_map (nodup_append.1 h.owners_nodup).2.1 hcb hcb' he)

/-- In the middle of a call that has collected `out`: only a full call leaves events waiting. -/
structure Collecting (r : Reader) (file : ℕ → B) (ids : List ℕ) (iocbs : List Iocb)
    (chain : ℕ → List ℕ) (D : List Handed) (maxEvents : ℕ) (out : List Handed) (c : Context B) :
    Prop where
  serving : Serving r file ids iocbs chain (D ++ out) c
  room : out.length ≤ maxEvents
  rest : out.length < maxEvents → c.completionEvents = []

variable {D out out' : List Handed} {maxEvents nrEvents : ℕ} {cb : Iocb}

theorem Collecting.reap (h : Collecting r file ids iocbs chain D maxEvents out c)
    (hcb : cb ∈ c.inFlight) :
    ∃ c' out', reap file maxEvents cb c out = some (c', out') ∧
      Collecting r file ids iocbs chain D maxEvents out' c' ∧ c'.inFlight = c.inFlight.erase cb ∧
      c'.pendingIoCount = c.pendingIoCount ∧ min maxEvents (out.length + 1) ≤ out'.length := by
  have hs := h.serving
  have hroot := hs.mem_root hcb
  have hiocb := hs.inFlight.subset hcb
  have hlinked := hs.batch.linked _ hroot
  set l := chain cb.data with hl
  set n := maxEvents - out.length with hn
  have hmem : ∀ x ∈ l, x ∈ (D ++ out).map Handed.index ++ (c.completionEvents ++
      (c.inFlight.map Iocb.data).flatMap chain) := fun x hx =>
    mem_append_right _ (mem_append_right _ (hs.mem_inFlight hcb hx))
  have hindex : ∀ x ∈ l, (c.ioData x).vectorIndex = x := fun x hx =>
    (hs.ok (hs.lt (hmem x hx))).vectorIndex
  have hperm : ((c.inFlight.map Iocb.data).flatMap chain).Perm
      (l ++ ((c.inFlight.erase cb).map Iocb.data).flatMap chain) :=
    ((perm_cons_erase hcb).map Iocb.data).flatMap_right chain
  have hfuel : l.length ≤ c.ioDataCount := by
    have h1 := hs.length_eq
    have h2 := hperm.length_eq
    rw [length_append] at h2
    rw [hs.count]
    omega
  have hhanded : ∀ l' : List ℕ, (∀ x ∈ l', x ∈ l) → (l'.map c.handed).map Handed.index = l' := by
    intro l' hl'
    rw [map_map]
    exact (map_congr_left (g := id) fun x hx => hindex x (hl' x hx)).trans (map_id l')
  have hwalk := @walk_eq _ c maxEvents _ _ _ out c.completionEvents hlinked hfuel hindex
  set mem' := Function.update c.mem cb.buff fun k =>
    if k < cb.len then file (cb.offset + k) else c.mem cb.buff k with hmem'
  set c' : Context B := { c with
    completionEvents := (l.drop n).reverse ++ c.completionEvents
    inFlight := c.inFlight.erase cb
    mem := mem' } with hc'
  have hpos : 0 < l.length := length_pos_of_mem hlinked.mem
  refine ⟨c', out ++ (l.take n).map c.handed, ?_, ⟨?_, ?_, fun hlt => ?_⟩, rfl, rfl, ?_⟩
  · rw [PqReader.reap, if_pos hcb, hwalk]
    rfl
  · refine ⟨hs.batch.collect _ _ _ _ _, hs.count, hs.cover, erase_sublist.trans hs.inFlight, ?_,
      fun d hd => ?_, fun cb' hcb' hfl => ?_, fun node hnode => ?_⟩
    · refine Perm.trans ?_ hs.once
      have htake : ((l.take n).map c.handed).map Handed.index = l.take n :=
        hhanded _ fun x hx => mem_of_mem_take hx
      refine perm_iff_count.2 fun y => ?_
      have h1 := hperm.count_eq y
      have h2 : List.count y (l.take n) + List.count y (l.drop n) = List.count y l := by
        rw [← count_append, take_append_drop]
      simp only [map_append, count_append, htake, hc', count_reverse] at h1 ⊢
      omega
    · rw [← append_assoc] at hd
      obtain hd | hd := mem_append.1 hd
      · exact hs.handed d hd
      · obtain ⟨x, hx, rfl⟩ := mem_map.1 hd
        have hx' := hindex x (mem_of_mem_take hx)
        show c.handed x = c.handed (c.ioData x).vectorIndex
        rw [hx']
    · by_cases hcc : cb' = cb
      · intro k hk
        rw [hcc] at hk ⊢
        simp only [hc', hmem', Function.update_self, if_pos hk]
      · have hfl' : cb' ∉ c.inFlight := fun hx => hfl ((mem_erase_of_ne hcc).2 hx)
        simp only [hc', hmem', Function.update_of_ne (hs.batch.buff_ne hcb' hiocb hcc)]
        exact hs.read cb' hcb' hfl'
    · obtain ⟨id, hpage, hread⟩ := hs.pages node hnode
      refine ⟨id, hpage, fun k hk => ?_⟩
      simp only [hc', hmem', Function.update_of_ne (hs.batch.node_buff_ne hnode hiocb)]
      exact hread k hk
  · rw [length_append, length_map, List.length_take]
    have := h.room
    omega
  · rw [length_append, length_map, List.length_take] at hlt
    have hdrop : l.drop n = [] := drop_eq_nil_of_le (by omega)
    show (l.drop n).reverse ++ c.completionEvents = []
    rw [hdrop, h.rest (by omega)]
    rfl
  · rw [length_append, length_map, List.length_take]
    omega

/-! ### The calls -/

/-- What a call has done when it returns. -/
def Returned (r : Reader) (file : ℕ → B) (ids : List ℕ) (iocbs : List Iocb) (chain : ℕ → List ℕ)
    (D : List Handed) (nrEvents maxEvents : ℕ) (out : List Handed) (c : Context B) : Prop :=
  Collecting r file ids iocbs chain D maxEvents out c ∧ c.pendingIoCount = c.inFlight.length ∧
    min nrEvents (min maxEvents (ids.length - D.length)) ≤ out.length

namespace Collecting

theorem setPending (h : Collecting r file ids iocbs chain D maxEvents out c) (pendingIoCount : ℕ) :
    Collecting r file ids iocbs chain D maxEvents out { c with pendingIoCount } where
  serving := ⟨h.serving.batch.collect _ _ _ _ _, h.serving.count, h.serving.cover, h.serving.inFlight,
    h.serving.once, h.serving.handed, h.serving.read, h.serving.pages⟩
  room := h.room
  rest := h.rest

theorem complete (h : Collecting r file ids iocbs chain D maxEvents out c) (hnil : c.inFlight = []) :
    min maxEvents (ids.length - D.length) ≤ out.length := by
  have hlen := h.serving.length_eq
  rw [hnil, length_append] at hlen
  by_cases hlt : out.length < maxEvents
  · rw [h.rest hlt] at hlen
    simp only [map_nil, flatMap_nil, length_nil] at hlen
    omega
  · omega

variable {evts : List Iocb}

theorem reapAll (h : Collecting r file ids iocbs chain D maxEvents out c)
    (hs : reapAll file maxEvents evts c out = some (c', out')) :
    Collecting r file ids iocbs chain D maxEvents out' c' ∧
      c'.inFlight.length + evts.length = c.inFlight.length ∧
      c'.pendingIoCount = c.pendingIoCount ∧ min maxEvents (out.length + evts.length) ≤ out'.length := by
  induction evts generalizing c out with
  | nil =>
    cases hs
    exact ⟨h, rfl, rfl, by simp⟩
  | cons cb evts ih =>
    rw [PqReader.reapAll, Option.bind_eq_some_iff] at hs
    obtain ⟨⟨c1, out1⟩, h1, h2⟩ := hs
    have hcb : cb ∈ c.inFlight := by
      by_contra hnot
      rw [PqReader.reap, if_neg hnot] at h1
      cases h1
    obtain ⟨c2, out2, heq, hcol, hfl, hpend, hlen⟩ := h.reap hcb
    rw [heq] at h1
    cases h1
    obtain ⟨hcol', hfl', hpend', hlen'⟩ := ih hcol h2
    have herase := length_erase_of_mem hcb
    have hpos := length_pos_of_mem hcb
    rw [hfl] at hfl'
    refine ⟨hcol', ?_, hpend'.trans hpend, ?_⟩
    · rw [length_cons]
      omega
    · rw [length_cons]
      omega

theorem reapAll_isSome (h : Collecting r file ids iocbs chain D maxEvents out c)
    (hnodup : evts.Nodup) (hsub : ∀ cb ∈ evts, cb ∈ c.inFlight) :
    ∃ c' out', PqReader.reapAll file maxEvents evts c out = some (c', out') := by
  induction evts generalizing c out with
  | nil => exact ⟨c, out, rfl⟩
  | cons cb evts ih =>
    obtain ⟨hnot, hnodup⟩ := nodup_cons.1 hnodup
    obtain ⟨c1, out1, heq, hcol, hfl, -, -⟩ := h.reap (hsub cb mem_cons_self)
    obtain ⟨c', out', h'⟩ := ih hcol hnodup fun cb' hcb' => by
      rw [hfl]
      exact (mem_erase_of_ne (ne_of_mem_of_not_mem hcb' hnot)).2
        (hsub cb' (mem_cons_of_mem _ hcb'))
    refine ⟨c', out', ?_⟩
    rw [PqReader.reapAll, heq]
    exact h'

theorem returned (h : Collecting r file ids iocbs chain D maxEvents out c)
    (hp : c.pendingIoCount = c.inFlight.length)
    (hstop : nrEvents ≤ out.length ∨ maxEvents ≤ out.length ∨ c.pendingIoCount = 0) :
    Returned r file ids iocbs chain D nrEvents maxEvents out c := by
  refine ⟨h, hp, ?_⟩
  obtain hle | hle | hzero := hstop
  · exact (min_le_left _ _).trans hle
  · exact ((min_le_right _ _).trans (min_le_left _ _)).trans hle
  · have hnil : c.inFlight = [] := length_eq_zero_iff.1 (hp.symm.trans hzero)
    exact (min_le_right _ _).trans (h.complete hnil)

theorem waitAio (h : Collecting r file ids iocbs chain D maxEvents out c)
    (hp : c.pendingIoCount = c.inFlight.length)
    (hs : waitAio file nrEvents maxEvents evts c out = some (c', out')) :
    Returned r file ids iocbs chain D nrEvents maxEvents out' c' := by
  unfold PqReader.waitAio at hs
  dsimp only at hs
  split_ifs at hs with hcond hevts hevts
  · obtain ⟨⟨c1, out1⟩, h1, h2⟩ := Option.map_eq_some_iff.1 hs
    obtain ⟨hcol, hfl, hpend, hlen⟩ := h.reapAll h1
    cases h2
    refine (hcol.setPending _).returned ?_ ?_
    · show c1.pendingIoCount - evts.length = c1.inFlight.length
      omega
    · show _ ∨ _ ∨ c1.pendingIoCount - evts.length = 0
      omega
  · cases hs
    exact h.returned hp (by omega)

theorem waitUring (h : Collecting r file ids iocbs chain D maxEvents out c)
    (hp : c.pendingIoCount = c.inFlight.length)
    (hs : waitUring file nrEvents maxEvents evts c out = some (c', out')) :
    Returned r file ids iocbs chain D nrEvents maxEvents out' c' := by
  induction evts generalizing c out with
  | nil =>
    rw [PqReader.waitUring] at hs
    split_ifs at hs with hcond
    cases hs
    exact h.returned hp (by omega)
  | cons cb evts ih =>
    rw [PqReader.waitUring] at hs
    by_cases hcond : out.length < nrEvents ∧ 0 < c.pendingIoCount
    swap
    · rw [if_neg hcond] at hs
      cases hs
    rw [if_pos hcond] at hs
    obtain ⟨⟨c1, out1⟩, h1, h2⟩ := Option.bind_eq_some_iff.1 hs
    have hcb : cb ∈ c.inFlight := by
      by_contra hnot
      rw [PqReader.reap, if_neg hnot] at h1
      cases h1
    obtain ⟨c2, out2, heq, hcol, hfl, hpend, -⟩ := h.reap hcb
    obtain ⟨rfl, rfl⟩ := Prod.mk.inj (Option.some.inj (heq.symm.trans h1))
    refine ih (hcol.setPending _) ?_ h2
    show c2.pendingIoCount - 1 = c2.inFlight.length
    rw [hfl, length_erase_of_mem hcb]
    omega

theorem waitAio_isSome (h : Collecting r file ids iocbs chain D maxEvents out c)
    (hp : c.pendingIoCount = c.inFlight.length) (nrEvents : ℕ) :
    ∃ evts c' out', PqReader.waitAio file nrEvents maxEvents evts c out = some (c', out') := by
  unfold PqReader.waitAio
  dsimp only
  split_ifs with hcond
  · set n := min (min nrEvents (maxEvents - out.length)) c.pendingIoCount with hn
    have hnodup : c.inFlight.Nodup :=
      (Nodup.of_map _ h.serving.batch.roots_nodup).sublist h.serving.inFlight
    obtain ⟨c', out', heq⟩ := h.reapAll_isSome
      (hnodup.sublist (take_sublist n c.inFlight)) fun cb hcb => mem_of_mem_take hcb
    have hlen : (c.inFlight.take n).length = n := by
      rw [List.length_take]
      omega
    refine ⟨c.inFlight.take n, { c' with pendingIoCount := c'.pendingIoCount - n }, out', ?_⟩
    rw [if_pos (by omega), heq, hlen]
    rfl
  · exact ⟨[], c, out, if_pos rfl⟩

theorem waitUring_isSome (h : Collecting r file ids iocbs chain D maxEvents out c)
    (hp : c.pendingIoCount = c.inFlight.length) (nrEvents : ℕ) :
    ∃ evts c' out', PqReader.waitUring file nrEvents maxEvents evts c out = some (c', out') := by
  induction hn : c.inFlight.length generalizing c out with
  | zero =>
    refine ⟨[], c, out, ?_⟩
    rw [PqReader.waitUring, if_neg (by omega), if_pos rfl]
  | succ n ih =>
    by_cases hcond : out.length < nrEvents ∧ 0 < c.pendingIoCount
    · obtain ⟨cb, fl, hcb⟩ : ∃ cb fl, c.inFlight = cb :: fl := exists_cons_of_length_eq_add_one hn
      have hmem : cb ∈ c.inFlight := hcb ▸ mem_cons_self
      obtain ⟨c1, out1, heq, hcol, hfl, hpend, -⟩ := h.reap hmem
      have hlen : c1.inFlight.length = n := by
        rw [hfl, length_erase_of_mem hmem, hn]
        rfl
      obtain ⟨evts, c', out', h'⟩ := ih (hcol.setPending (c1.pendingIoCount - 1)) (by
        show c1.pendingIoCount - 1 = c1.inFlight.length
        omega) hlen
      refine ⟨cb :: evts, c', out', ?_⟩
      rw [PqReader.waitUring, if_pos hcond]
      rw [heq]
      exact h'
    · refine ⟨[], c, out, ?_⟩
      rw [PqReader.waitUring, if_neg hcond, if_pos rfl]

end Collecting

theorem Serving.popEvents (h : Serving r file ids iocbs chain D c) (maxEvents : ℕ) :
    Collecting r file ids iocbs chain D maxEvents ((c.completionEvents.take maxEvents).map c.handed)
      { c with completionEvents := c.completionEvents.drop maxEvents } := by
  have hindex : ∀ x ∈ c.completionEvents.take maxEvents, (c.ioData x).vectorIndex = x := by
    intro x hx
    refine (h.ok (h.lt ?_)).vectorIndex
    exact mem_append_right _ (mem_append_left _ (mem_of_mem_take hx))
  have htake : ((c.completionEvents.take maxEvents).map c.handed).map Handed.index =
      c.completionEvents.take maxEvents := by
    rw [map_map]
    exact (map_congr_left fun x hx => hindex x hx).trans (map_id _)
  refine ⟨⟨h.batch.collect _ _ _ _ _, h.count, h.cover, h.inFlight, ?_, fun d hd => ?_, h.read, h.pages⟩,
    ?_, fun hlt => ?_⟩
  · rw [map_append, htake, append_assoc, ← append_assoc (List.take _ _),
      take_append_drop]
    exact h.once
  · obtain hd | hd := mem_append.1 hd
    · exact h.handed d hd
    · obtain ⟨x, hx, rfl⟩ := mem_map.1 hd
      show c.handed x = c.handed (c.ioData x).vectorIndex
      rw [hindex x hx]
  · rw [length_map, List.length_take]
    exact Nat.min_le_left ..
  · rw [length_map, List.length_take] at hlt
    exact drop_eq_nil_of_le (by omega)

/-- A call hands back each id once, and as many as it is asked for while there are any. -/
theorem Serving.waitCompletion (h : Serving r file ids iocbs chain D c)
    (hp : c.pendingIoCount = c.inFlight.length) {engine : Engine} {evts : List Iocb}
    (hs : waitCompletion engine file nrEvents maxEvents evts c = some (c', out)) :
    Returned r file ids iocbs chain D nrEvents maxEvents out c' := by
  have hcol := h.popEvents maxEvents
  unfold PqReader.waitCompletion at hs
  dsimp only at hs
  split_ifs at hs with hnr
  · cases hs
    exact hcol.returned hp (.inl hnr)
  · cases engine with
    | aio => exact hcol.waitAio hp hs
    | uring => exact hcol.waitUring hp hs

theorem Serving.waitCompletion_isSome (h : Serving r file ids iocbs chain D c)
    (hp : c.pendingIoCount = c.inFlight.length) (engine : Engine) (nrEvents maxEvents : ℕ) :
    ∃ evts c' out, PqReader.waitCompletion engine file nrEvents maxEvents evts c = some (c', out) := by
  have hcol := h.popEvents maxEvents
  unfold PqReader.waitCompletion
  dsimp only
  split_ifs with hnr
  · exact ⟨[], _, _, if_pos rfl⟩
  · cases engine with
    | aio => exact hcol.waitAio_isSome hp nrEvents
    | uring => exact hcol.waitUring_isSome hp nrEvents

end DiskANNEval.AiSAQ.PqReader
