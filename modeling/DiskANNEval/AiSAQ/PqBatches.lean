import DiskANNEval.AiSAQ.PqWait

/-!
# PqBatches — batch after batch

A context is `Ready` before a submit, `Serving` from it until `done`, and `Ready` again after that.
So over any sequence of calls each data buffer has one owner, and the page cache is consistent
(`buffersOk_of_reach`).
-/

namespace DiskANNEval.AiSAQ.PqReader

open Lib List

variable {B : Type} {r : Reader} {file : ℕ → B} {ids : List ℕ} {iocbs : List Iocb}
  {chain : ℕ → List ℕ} {c c' : Context B} {p : Pass B}

/-- No batch is under way: all buffers are free or in the page cache. -/
structure Ready (r : Reader) (file : ℕ → B) (c : Context B) : Prop where
  cache : CacheOk r c
  idle : c.idleBuffers.Perm (List.range (nitems r c.maxIos c.pageCacheSizeBytes))
  pending : c.pendingIoCount = 0
  pages : ∀ node ∈ c.lruList, PageRead r file c.mem node

/-! ### Submit -/

theorem CacheInv.missInv (h : CacheInv r ids c ids.length p) (hc : c.caching = true)
    (hidle : c.idleBuffers.Perm (List.range (nitems r c.maxIos c.pageCacheSizeBytes))) :
    MissInv r ids c 0 p fun _ => [] := by
  have hcaching : p.ctx.caching = true := h.same.caching.trans hc
  have hhit : ∀ x, p.ctx.hit x ↔ (p.ctx.ioData x).inPageCache = true := fun x =>
    and_iff_right hcaching
  obtain ⟨hpending, hiocbs, hmap, hcount⟩ := h.start
  obtain ⟨old, hits, hlru, hlen, hhits⟩ := h.hits
  have hhandled : p.handled (fun _ => []) = p.ctx.completionEvents := by
    rw [Pass.handled, hiocbs]
    exact append_nil _
  refine ⟨h.same, ⟨h.cache, ?_, fun x id hid _ => ?_, ?_, ?_, ?_, ?_, fun x hx hh => ⟨?_, ?_⟩,
    fun _ x hx hh => ?_, ?_⟩, ?_, fun x => ?_, fun x hx => ?_, ?_, ?_, fun f j hj => ?_, ?_,
    fun _ hpos => hcount hpos⟩
  · rw [hiocbs, map_nil, append_nil, h.same.maxIos, h.same.pageCacheSizeBytes]
    exact h.idle.trans hidle
  · exact h.params x id (List.getElem?_eq_some_iff.1 hid).1 hid
  · simp [hiocbs]
  · simp [hiocbs]
  · simp [hiocbs]
  · simp [hiocbs]
  · rw [hlru]
    exact mem_append_right _ (hhits x hx ((hhit x).1 hh))
  · exact h.root x hx ((hhit x).1 hh)
  · exact h.miss x hx (by simpa [hhit x] using hh)
  · simp [hiocbs]
  · rw [hhandled]
    exact h.nodup
  · rw [hhandled, h.events x, hhit x]
    simp
  · exact (hhit x).2 ((h.events x).1 hx).2
  · rw [hpending, hiocbs]
    rfl
  · exact ⟨old, hits, hlru, hlen, fun x hx hh => hhits x hx ((hhit x).1 hh)⟩
  · rw [hmap f] at hj
    cases hj
  · simp [hiocbs]

theorem MissInv.serving (h : MissInv r ids c ids.length p chain)
    (hpages : ∀ node ∈ c.lruList, PageRead r file c.mem node) :
    Serving r file ids p.iocbs chain []
      { p.ctx with ioDataCount := ids.length, inFlight := p.iocbs } where
  batch := h.batch.collect _ _ _ _ _
  count := rfl
  cover x hx := by
    have hmem := (h.handled x).2 ⟨hx, .inl hx⟩
    refine (mem_append.1 hmem).imp (h.events x) fun hx' => ?_
    obtain ⟨j, hj, hxj⟩ := mem_flatMap.1 hx'
    obtain ⟨cb, hcb, rfl⟩ := mem_map.1 hj
    exact ⟨cb, hcb, hxj⟩
  inFlight := Sublist.refl _
  once := by
    refine (perm_ext_iff_of_nodup h.nodup nodup_range).2 fun x => ?_
    rw [h.handled x, List.mem_range]
    exact ⟨fun hx => hx.1, fun hx => ⟨hx, .inl hx⟩⟩
  handed d hd := absurd hd not_mem_nil
  read cb hcb hnot := absurd hcb hnot
  pages node hnode := by
    rw [h.same.mem]
    exact hpages node (h.same.nodes node hnode)

/-- A batch of at most `maxIos` ids is taken if their reads fit into the buffers; otherwise an
assertion fails. -/
theorem Ready.submit (h : Ready r file c) (hmax : ids.length ≤ c.maxIos) :
    ((∀ id ∈ ids, r.Fits id) → ∃ c' iocbs chain, submit r c ids = .ok c' ∧
      Serving r file ids iocbs chain [] c' ∧ c'.pendingIoCount = c'.inFlight.length) ∧
    ((∃ id ∈ ids, ¬ r.Fits id) → submit r c ids = .error .assertion) := by
  set p0 : Pass B := ⟨{ c with completionEvents := [] }, fun _ => none, 0, []⟩ with hp0
  have hsame : Same c p0.ctx := ⟨rfl, rfl, rfl, fun _ hn => hn⟩
  have hcache : CacheOk r p0.ctx := ⟨h.cache.cached, h.cache.pages, h.cache.off, h.cache.rearranged⟩
  obtain ⟨p, hp, hmiss⟩ : ∃ p, (if c.caching = true then cachePass r 0 ids p0 else .ok p0) = .ok p ∧
      MissInv r ids c 0 p fun _ => [] := by
    by_cases hc : c.caching = true
    · have hinv : CacheInv r ids c 0 p0 :=
        ⟨hsame, hcache, Perm.refl _, by simp, nodup_nil, by simp [hp0],
          ⟨c.lruList, [], (append_nil _).symm, le_rfl, by simp⟩, by simp, by simp,
          h.pending, rfl, fun _ => rfl, by simp⟩
      obtain ⟨p, hp, hinv'⟩ := cachePass_spec hinv (h.cache.rearranged hc)
        drop_zero (Nat.zero_le _)
      exact ⟨p, by rw [if_pos hc, hp], hinv'.missInv hc h.idle⟩
    · refine ⟨p0, by rw [if_neg hc], hsame, ⟨hcache, ?_, fun x id hid hx => ?_, rfl, by simp [hp0],
        by simp [hp0], by simp [hp0], fun x _ hh => absurd hh.1 hc, fun hc' => absurd hc' hc,
        by simp [hp0]⟩, nodup_nil, fun x => ?_, by simp [hp0], h.pending, ?_, by simp [hp0],
        by simp [hp0], fun hc' => absurd hc' hc⟩
      · exact (append_nil _).symm ▸ h.idle
      · exact hx.elim (fun hx => absurd hx hc) fun hx => absurd hx (Nat.not_lt_zero x)
      · refine iff_of_false not_mem_nil ?_
        rintro ⟨-, hx | hh⟩
        · exact Nat.not_lt_zero x hx
        · exact hc hh.1
      · exact ⟨c.lruList, [], (append_nil _).symm, le_rfl, fun x _ hh => absurd hh.1 hc⟩
  have heq : PqReader.submit r c ids = (missPass r 0 ids p).bind fun p =>
      .ok { p.ctx with ioDataCount := ids.length, inFlight := p.iocbs } := by
    rw [PqReader.submit, if_neg (Nat.not_lt.2 hmax), if_neg (by simp [h.pending])]
    dsimp only
    rw [hp]
    rfl
  obtain ⟨hok, herr⟩ := missPass_spec hmiss hmax drop_zero (Nat.zero_le _)
  refine ⟨fun hall => ?_, fun hnot => ?_⟩
  · obtain ⟨p', chain, hp', hinv⟩ := hok hall
    refine ⟨_, p'.iocbs, chain, by rw [heq, hp']; rfl, hinv.serving h.pages, hinv.pending⟩
  · rw [heq, herr hnot]
    rfl

/-! ### Done -/

/-- The buffers of the reads `L` are still to be given back. -/
structure Releasing (r : Reader) (file : ℕ → B) (L : List Iocb) (c : Context B) : Prop where
  cache : CacheOk r c
  owners : (c.idleBuffers ++ L.map Iocb.buff).Perm
    (List.range (nitems r c.maxIos c.pageCacheSizeBytes))
  root : ∀ cb ∈ L, (c.ioData cb.data).rootIo = true ∧ (c.ioData cb.data).buff = cb.buff
  fresh : c.caching = true → ∀ cb ∈ L, c.cachedDataBuffers (pageId r (c.ioData cb.data)) = none
  distinct : c.caching = true → (L.map fun cb => pageId r (c.ioData cb.data)).Nodup
  pages : ∀ node ∈ c.lruList, PageRead r file c.mem node
  read : c.caching = true → ∀ cb ∈ L, PageRead r file c.mem (c.nodeOf r cb.data)

/-- What giving the buffers back leaves alone. -/
structure Kept (c c' : Context B) : Prop where
  pendingIoCount : c'.pendingIoCount = c.pendingIoCount
  inFlight : c'.inFlight = c.inFlight
  ioData : c'.ioData = c.ioData

theorem Releasing.doneStep {cb : Iocb} {L : List Iocb} (h : Releasing r file (cb :: L) c) :
    Releasing r file L (doneStep r c cb.data) ∧ Kept c (doneStep r c cb.data) := by
  obtain ⟨hroot, hbuff⟩ := h.root cb mem_cons_self
  have htail : ∀ cb' ∈ L, cb' ∈ cb :: L := fun _ => mem_cons_of_mem _
  have howners := h.owners
  rw [map_cons] at howners
  unfold PqReader.doneStep
  rw [if_pos hroot]
  by_cases hc : c.caching = true
  · rw [if_pos hc]
    set node : PageCacheNode := ⟨pageId r (c.ioData cb.data), (c.ioData cb.data).buff⟩ with hnode
    have hfresh : c.cachedDataBuffers node.pageId = none := h.fresh hc cb mem_cons_self
    have hnew : ∀ x ∈ c.lruList, x.pageId ≠ node.pageId := by
      intro x hx he
      have := (h.cache.cached node.pageId x).2 ⟨hx, he⟩
      rw [hfresh] at this
      cases this
    obtain ⟨hnot, hnodup⟩ := nodup_cons.1 (h.distinct hc)
    refine ⟨⟨⟨fun page x => ?_, ?_, fun hoff => ?_, h.cache.rearranged⟩, ?_,
      fun cb' hcb' => h.root cb' (htail cb' hcb'), fun _ cb' hcb' => ?_, fun _ => hnodup,
      fun x hx => ?_, fun _ cb' hcb' => h.read hc cb' (htail cb' hcb')⟩, rfl, rfl, rfl⟩
    · dsimp only
      rw [mem_append, mem_singleton]
      by_cases hpage : page = node.pageId
      · rw [hpage, Function.update_self]
        constructor
        · intro hx
          exact ⟨.inr (Option.some.inj hx).symm, by rw [Option.some.inj hx]⟩
        · rintro ⟨hx | rfl, hxp⟩
          · exact absurd hxp (hnew x hx)
          · rfl
      · rw [Function.update_of_ne hpage, h.cache.cached page x]
        constructor
        · exact fun hx => ⟨.inl hx.1, hx.2⟩
        · rintro ⟨hx | rfl, hxp⟩
          · exact ⟨hx, hxp⟩
          · exact absurd hxp.symm hpage
    · rw [map_append]
      refine nodup_append.2 ⟨h.cache.pages, nodup_singleton _, fun x hx y hy => ?_⟩
      obtain ⟨x', hx', rfl⟩ := mem_map.1 hx
      rw [mem_singleton.1 hy]
      exact hnew x' hx'
    · exact absurd (hoff.symm.trans hc) (by decide)
    · refine Perm.trans ?_ howners
      simp only [Context.idleBuffers, map_append, map_singleton, append_assoc,
        singleton_append]
      rw [show node.buff = cb.buff from hbuff]
    · have hne : pageId r (c.ioData cb'.data) ≠ node.pageId := fun he =>
        hnot (mem_map.2 ⟨cb', hcb', he⟩)
      dsimp only
      rw [Function.update_of_ne hne]
      exact h.fresh hc cb' (htail cb' hcb')
    · obtain hx | hx := mem_append.1 hx
      · exact h.pages x hx
      · rw [mem_singleton.1 hx]
        exact h.read hc cb mem_cons_self
  · rw [if_neg hc]
    refine ⟨⟨⟨h.cache.cached, h.cache.pages, h.cache.off, h.cache.rearranged⟩, ?_,
      fun cb' hcb' => h.root cb' (htail cb' hcb'), fun hc' => absurd hc' hc, fun hc' => absurd hc' hc,
      h.pages, fun hc' => absurd hc' hc⟩, rfl, rfl, rfl⟩
    refine Perm.trans ?_ howners
    rw [hbuff]
    exact perm_middle.symm

theorem Releasing.foldl {L : List Iocb} (h : Releasing r file L c) :
    Releasing r file [] ((L.map Iocb.data).foldl (PqReader.doneStep r) c) ∧
      Kept c ((L.map Iocb.data).foldl (PqReader.doneStep r) c) := by
  induction L generalizing c with
  | nil => exact ⟨h, rfl, rfl, rfl⟩
  | cons cb L ih =>
    obtain ⟨h1, hk1⟩ := h.doneStep
    obtain ⟨h2, hk2⟩ := ih h1
    exact ⟨h2, hk2.pendingIoCount.trans hk1.pendingIoCount, hk2.inFlight.trans hk1.inFlight,
      hk2.ioData.trans hk1.ioData⟩

theorem foldl_doneStep (L : List ℕ) : L.foldl (PqReader.doneStep r) c =
    (L.filter fun i => (c.ioData i).rootIo).foldl (PqReader.doneStep r) c := by
  induction L generalizing c with
  | nil => rfl
  | cons i L ih =>
    have hio : (PqReader.doneStep r c i).ioData = c.ioData := by
      unfold PqReader.doneStep
      dsimp only
      split_ifs <;> rfl
    rw [foldl_cons, ih, filter_cons, hio]
    split_ifs with hroot
    · rfl
    · rw [PqReader.doneStep, if_neg hroot]

variable {D : List Handed}

theorem Serving.releasing (h : Serving r file ids iocbs chain D c) (hfl : c.inFlight = []) :
    Releasing r file iocbs c := by
  have hself : ∀ cb ∈ iocbs, cb.data ∈ chain cb.data := fun cb hcb =>
    (h.batch.linked _ (mem_map_of_mem hcb)).mem
  have hlt : ∀ cb ∈ iocbs, cb.data < ids.length := fun cb hcb =>
    h.batch.root_lt (mem_map_of_mem hcb)
  have hroot : ∀ cb ∈ iocbs, (c.ioData cb.data).rootIo = true := by
    intro cb hcb
    have hmem : cb.data ∈ iocbs.map Iocb.data := mem_map_of_mem hcb
    rw [h.batch.roots] at hmem
    exact (mem_filter.1 hmem).2
  have hnohit : ∀ cb ∈ iocbs, ¬ c.hit cb.data := by
    intro cb hcb hh
    have := (h.batch.hits _ (hlt cb hcb) hh).2
    rw [hroot cb hcb] at this
    cases this
  refine ⟨h.batch.cache, h.batch.owners, fun cb hcb => ⟨hroot cb hcb, ?_⟩, fun hc cb hcb => ?_,
    fun hc => ?_, h.pages, fun hc cb hcb => ?_⟩
  · exact (h.batch.shared cb hcb _ (hself cb hcb)).2.2
  · exact h.batch.fresh hc _ (hlt cb hcb) (hnohit cb hcb)
  · refine Nodup.map_on (fun cb hcb cb' hcb' he => ?_) (Nodup.of_map _ h.batch.roots_nodup)
    have hx := hlt cb hcb
    have hx' := hlt cb' hcb'
    have hok := h.ok hx
    have hok' := h.ok hx'
    have hfrom := (r.readParams_of_page ids[cb.data] ids[cb'.data] (h.batch.cache.rearranged hc) (by
      rw [← hok.fromSector, ← hok'.fromSector]
      exact he)).1
    rw [← hok.fromSector, ← hok'.fromSector] at hfrom
    exact h.iocb_unique hcb hcb'
      (h.batch.distinct hc _ (mem_map_of_mem hcb) _ (mem_map_of_mem hcb') hfrom)
  · have hx := hlt cb hcb
    have hok := h.ok hx
    obtain ⟨hoff, hlen⟩ := h.batch.iocb cb hcb
    have hsectors := r.readSectors_rearranged ids[cb.data] (h.batch.cache.rearranged hc)
    refine ⟨ids[cb.data], ?_, fun k hk => ?_⟩
    · rw [Context.nodeOf, pageId, hok.fromSector]
    · have hread := h.read cb hcb (by simp [hfl]) k (by
        rw [hlen, hok.toSector, hok.fromSector]
        rw [Reader.readSectors] at hsectors
        rwa [hsectors])
      rw [hoff, hok.fromSector] at hread
      rw [show (c.nodeOf r cb.data).buff = cb.buff from
        (h.batch.shared cb hcb _ (hself cb hcb)).2.2]
      exact hread

theorem Serving.done (h : Serving r file ids iocbs chain D c)
    (hp : c.pendingIoCount = c.inFlight.length) (hs : done r c = some c') :
    Ready r file c' ∧ c'.ioDataCount = 0 ∧ c'.inFlight = [] := by
  unfold PqReader.done at hs
  split_ifs at hs with hzero
  cases hs
  have hfl : c.inFlight = [] := length_eq_zero_iff.1 (hp.symm.trans hzero)
  obtain ⟨hrel, hkept⟩ := (h.releasing hfl).foldl
  have heq : (List.range c.ioDataCount).foldl (PqReader.doneStep r) c =
      (iocbs.map Iocb.data).foldl (PqReader.doneStep r) c := by
    rw [foldl_doneStep, h.count, h.batch.roots]
  rw [heq]
  have howners := hrel.owners
  rw [map_nil, append_nil] at howners
  exact ⟨⟨⟨hrel.cache.cached, hrel.cache.pages, hrel.cache.off, hrel.cache.rearranged⟩, howners,
    hkept.pendingIoCount.trans hzero, hrel.pages⟩, rfl, hkept.inFlight.trans hfl⟩

theorem Serving.ready (h : Serving r file ids iocbs chain D c)
    (hp : c.pendingIoCount = c.inFlight.length) (hzero : c.ioDataCount = 0) :
    Ready r file c ∧ c.inFlight = [] := by
  have hroots := h.batch.roots
  rw [← h.count, hzero] at hroots
  have hiocbs : iocbs = [] := map_eq_nil_iff.1 hroots
  have hfl : c.inFlight = [] := sublist_nil.1 (hiocbs ▸ h.inFlight)
  have howners := h.batch.owners
  rw [hiocbs, map_nil, append_nil] at howners
  exact ⟨⟨h.batch.cache, howners, by rw [hp, hfl]; rfl, h.pages⟩, hfl⟩

/-! ### Runs -/

/-- A batch is under way, or none is. -/
inductive RunInv (r : Reader) (file : ℕ → B) (c : Context B) : Prop
  | serving (ids : List ℕ) (iocbs : List Iocb) (chain : ℕ → List ℕ) (D : List Handed)
      (h : Serving r file ids iocbs chain D c) (hp : c.pendingIoCount = c.inFlight.length)
  | ready (h : Ready r file c) (hzero : c.ioDataCount = 0) (hfl : c.inFlight = [])

theorem RunInv.toReady (h : RunInv r file c) (hzero : c.ioDataCount = 0) :
    Ready r file c ∧ c.inFlight = [] := by
  cases h with
  | serving ids iocbs chain D h hp => exact h.ready hp hzero
  | ready h _ hfl => exact ⟨h, hfl⟩

theorem Init.inv (h : Init r c) : RunInv r file c := by
  obtain ⟨maxIos, pageCacheSizeBytes, ioData, mem, rfl⟩ := h
  refine .ready ⟨⟨fun page node => ?_, nodup_nil, fun _ => rfl, fun hc => ?_⟩, ?_, rfl,
    fun node hn => absurd hn not_mem_nil⟩ rfl rfl
  · exact iff_of_false (by simp [createContext]) (fun hn => absurd hn.1 not_mem_nil)
  · by_contra hr
    simp [Context.caching, createContext, hr] at hc
  · rw [Context.idleBuffers]
    simp only [createContext, map_nil, append_nil]
    exact reverse_perm _

variable {engine : Engine}

theorem Ready.wait (h : Ready r file c) {nrEvents maxEvents : ℕ} {evts : List Iocb}
    {out : List Handed}
    (hs : waitCompletion engine file nrEvents maxEvents evts c = some (c', out)) :
    Ready r file c' ∧ c'.ioDataCount = c.ioDataCount ∧ c'.inFlight = c.inFlight := by
  have heq : c' = { c with completionEvents := c.completionEvents.drop maxEvents } := by
    unfold waitCompletion at hs
    dsimp only at hs
    split_ifs at hs
    · cases hs
      rfl
    · cases engine with
      | aio =>
        have hnot : ∀ room : ℕ, ¬ (0 < room ∧ 0 < c.pendingIoCount) := fun _ hp =>
          absurd hp.2 (h.pending ▸ Nat.lt_irrefl 0)
        simp only [waitAio] at hs
        rw [if_neg (hnot _)] at hs
        split_ifs at hs
        cases hs
        rfl
      | uring =>
        have hnot : ∀ n : ℕ, ¬ (n < nrEvents ∧ 0 < c.pendingIoCount) := fun _ hp =>
          absurd hp.2 (h.pending ▸ Nat.lt_irrefl 0)
        rw [waitUring.eq_def] at hs
        dsimp only at hs
        rw [if_neg (hnot _)] at hs
        split_ifs at hs
        cases hs
        rfl
  subst heq
  exact ⟨⟨⟨h.cache.cached, h.cache.pages, h.cache.off, h.cache.rearranged⟩, h.idle, h.pending,
    h.pages⟩, rfl, rfl⟩

theorem Ready.clearPageCache (h : Ready r file c) : Ready r file (clearPageCache c) := by
  refine ⟨⟨fun page node => ?_, nodup_nil, fun _ => rfl, h.cache.rearranged⟩, ?_, h.pending,
    fun node hn => absurd hn not_mem_nil⟩
  · exact iff_of_false (by simp [PqReader.clearPageCache]) fun hn => absurd hn.1 not_mem_nil
  · refine Perm.trans ?_ h.idle
    simp only [Context.idleBuffers, PqReader.clearPageCache, map_nil, append_nil]
    exact perm_append_comm

theorem RunInv.step (h : RunInv r file c) {a : Act} (hs : step r engine file c a = some c') :
    RunInv r file c' := by
  cases a with
  | submit ids =>
    simp only [PqReader.step] at hs
    split_ifs at hs with hzero
    obtain ⟨hready, hfl⟩ := h.toReady hzero
    by_cases hmax : ids.length ≤ c.maxIos
    · obtain ⟨hok, herr⟩ := hready.submit hmax
      by_cases hall : ∀ id ∈ ids, r.Fits id
      · obtain ⟨c1, iocbs, chain, heq, hserving, hp⟩ := hok hall
        rw [heq] at hs
        cases hs
        exact .serving ids iocbs chain [] hserving hp
      · push Not at hall
        rw [herr hall] at hs
        cases hs
    · rw [PqReader.submit, if_pos (Nat.not_le.1 hmax)] at hs
      cases hs
      exact .ready hready hzero hfl
  | wait nrEvents maxEvents evts =>
    obtain ⟨⟨c1, out⟩, h1, rfl⟩ := Option.map_eq_some_iff.1 hs
    cases h with
    | serving ids iocbs chain D h hp =>
      obtain ⟨hcol, hp', -⟩ := h.waitCompletion hp h1
      exact .serving ids iocbs chain _ hcol.serving hp'
    | ready h hzero hfl =>
      obtain ⟨h', hzero', hfl'⟩ := h.wait h1
      exact .ready h' (hzero'.trans hzero) (hfl'.trans hfl)
  | done =>
    cases h with
    | serving ids iocbs chain D h hp =>
      obtain ⟨h', hzero, hfl⟩ := h.done hp hs
      exact .ready h' hzero hfl
    | ready h hzero hfl =>
      simp only [PqReader.step, PqReader.done, h.pending, hzero, range_zero,
        foldl_nil] at hs
      cases hs
      exact .ready ⟨⟨h.cache.cached, h.cache.pages, h.cache.off, h.cache.rearranged⟩, h.idle,
        rfl, h.pages⟩ rfl hfl
  | clearPageCache =>
    simp only [PqReader.step] at hs
    split_ifs at hs with hzero
    cases hs
    obtain ⟨hready, hfl⟩ := h.toReady hzero
    exact .ready hready.clearPageCache hzero hfl

theorem runInv_of_reach (h : Reach (Init r) (ofFn (step r engine file)) c) : RunInv r file c :=
  Reach.invariant (fun _ hc => hc.inv) (fun _ _ _ hi hs => hi.step hs) h

/-! ### The buffers -/

/-- The buffers of the root requests of the batch under way. -/
def Context.rootBuffers (c : Context B) : List ℕ :=
  ((List.range c.ioDataCount).filter fun i => (c.ioData i).rootIo).map fun i => (c.ioData i).buff

/-- Each data buffer is in one place; the map and the list of the page cache have the same pages,
each once; a page that the batch has hit is in the cache; and a batch that is not too long finds
buffers for all its reads. -/
structure BuffersOk (r : Reader) (c : Context B) : Prop where
  owners : (c.freeDataBuffers ++ c.lruList.map PageCacheNode.buff ++ c.rootBuffers).Perm
    (List.range (nitems r c.maxIos c.pageCacheSizeBytes))
  cached : ∀ page node, c.cachedDataBuffers page = some node ↔
    node ∈ c.lruList ∧ node.pageId = page
  pages : (c.lruList.map PageCacheNode.pageId).Nodup
  hits : ∀ i < c.ioDataCount, c.hit i → c.nodeOf r i ∈ c.lruList
  enough : c.ioDataCount = 0 → ∀ ids : List ℕ, ids.length ≤ c.maxIos →
    submit r c ids ≠ .error .noBuffers

theorem Ready.submit_ne (h : Ready r file c) (hmax : ids.length ≤ c.maxIos) :
    PqReader.submit r c ids ≠ .error .noBuffers := by
  obtain ⟨hok, herr⟩ := h.submit hmax
  intro heq
  by_cases hall : ∀ id ∈ ids, r.Fits id
  · obtain ⟨c', _, _, hc', -⟩ := hok hall
    rw [hc'] at heq
    cases heq
  · push Not at hall
    rw [herr hall] at heq
    cases heq

theorem Serving.rootBuffers (h : Serving r file ids iocbs chain D c) :
    c.rootBuffers = iocbs.map Iocb.buff := by
  rw [Context.rootBuffers, h.count, ← h.batch.roots, map_map]
  refine map_congr_left fun cb hcb => ?_
  exact (h.batch.shared cb hcb _ (h.batch.linked _ (mem_map_of_mem hcb)).mem).2.2

theorem RunInv.buffersOk (h : RunInv r file c) : BuffersOk r c := by
  have henough : c.ioDataCount = 0 → ∀ ids : List ℕ, ids.length ≤ c.maxIos →
      PqReader.submit r c ids ≠ .error .noBuffers := fun hzero _ hmax => (h.toReady hzero).1.submit_ne hmax
  cases h with
  | serving ids iocbs chain D h hp =>
    refine ⟨?_, h.batch.cache.cached, h.batch.cache.pages, fun i hi hh => ?_, henough⟩
    · rw [h.rootBuffers]
      exact h.batch.owners
    · exact (h.batch.hits i (h.count ▸ hi) hh).1
  | ready h hzero hfl =>
    refine ⟨?_, h.cache.cached, h.cache.pages, fun i hi => ?_, henough⟩
    · rw [Context.rootBuffers, hzero]
      simpa [Context.idleBuffers] using h.idle
    · rw [hzero] at hi
      exact absurd hi (Nat.not_lt_zero i)

/-- After any sequence of batches. -/
theorem buffersOk_of_reach {engine : Engine} {file : ℕ → B}
    (h : Reach (Init r) (ofFn (step r engine file)) c) : BuffersOk r c :=
  (runInv_of_reach h).buffersOk

end DiskANNEval.AiSAQ.PqReader
