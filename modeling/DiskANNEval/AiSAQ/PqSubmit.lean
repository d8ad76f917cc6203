import DiskANNEval.AiSAQ.PqReader
import Mathlib.Data.List.Perm.Subperm
import Mathlib.Data.List.Range
import Mathlib.Tactic.Ring

/-!
# PqSubmit — what a submit leaves behind

`Reader` facts about sectors, then the two loops of `read_pq_vectors_submit` by their invariants:
`CacheInv` after `i` lookups and `MissInv` after `i` reads.  `BatchOk` is what both the buffers and
the deliveries rest on; it does not speak of what changes while the reads complete.
-/

namespace DiskANNEval.AiSAQ.PqReader

open Lib List Function Nat

/-! ### Sectors -/

namespace Reader

variable (r : Reader) (id id' : ℕ)

theorem page_pos (h : r.rearranged = true) : 0 < r.rearrangedPqPageSize :=
  lt_of_lt_of_le r.vector_pos (r.page h).2

theorem vectorsPerPage_pos (h : r.rearranged = true) : 0 < r.rearrangedPqVectorsPerPage := by
  rw [rearrangedPqVectorsPerPage, if_pos h]
  exact div_pos (r.page h).2 r.vector_pos

theorem sectorsPerPage_mul (h : r.rearranged = true) :
    r.rearrangedPqSectorsPerPage * sectorSize = r.rearrangedPqPageSize := by
  rw [rearrangedPqSectorsPerPage, if_pos h]
  exact Nat.div_mul_cancel (dvd_trans (by decide) (r.page h).1)

theorem sectorsPerPage_pos (h : r.rearranged = true) : 0 < r.rearrangedPqSectorsPerPage := by
  have hmul := r.sectorsPerPage_mul h
  have hpos := r.page_pos h
  exact Nat.pos_of_mul_pos_right (hmul ▸ hpos)

theorem vector_end_le (h : r.rearranged = true) :
    id % r.rearrangedPqVectorsPerPage * r.pqVectorSize + r.pqVectorSize ≤ r.rearrangedPqPageSize := by
  have hlt := mod_lt id (r.vectorsPerPage_pos h)
  have hle : r.rearrangedPqVectorsPerPage * r.pqVectorSize ≤ r.rearrangedPqPageSize := by
    rw [rearrangedPqVectorsPerPage, if_pos h]
    exact div_mul_le_self ..
  calc id % r.rearrangedPqVectorsPerPage * r.pqVectorSize + r.pqVectorSize
      = (id % r.rearrangedPqVectorsPerPage + 1) * r.pqVectorSize := by ring
    _ ≤ r.rearrangedPqVectorsPerPage * r.pqVectorSize := mul_le_mul_right _ hlt
    _ ≤ r.rearrangedPqPageSize := hle

theorem readParams_rearranged (h : r.rearranged = true) :
    r.calcPqVectorReadParams id =
      ⟨8 + id / r.rearrangedPqVectorsPerPage * r.rearrangedPqSectorsPerPage,
        8 + id / r.rearrangedPqVectorsPerPage * r.rearrangedPqSectorsPerPage +
          r.rearrangedPqSectorsPerPage - 1,
        id % r.rearrangedPqVectorsPerPage * r.pqVectorSize⟩ := by
  have hlt : id % r.rearrangedPqVectorsPerPage * r.pqVectorSize < r.rearrangedPqPageSize :=
    lt_of_lt_of_le (Nat.lt_add_of_pos_right r.vector_pos) (r.vector_end_le id h)
  have hdiv : (id / r.rearrangedPqVectorsPerPage * r.rearrangedPqPageSize +
      id % r.rearrangedPqVectorsPerPage * r.pqVectorSize) / r.rearrangedPqPageSize =
      id / r.rearrangedPqVectorsPerPage := by
    rw [add_comm, add_mul_div_right _ _ (r.page_pos h), div_eq_of_lt hlt, zero_add]
  have hmod : (id / r.rearrangedPqVectorsPerPage * r.rearrangedPqPageSize +
      id % r.rearrangedPqVectorsPerPage * r.pqVectorSize) % r.rearrangedPqPageSize =
      id % r.rearrangedPqVectorsPerPage * r.pqVectorSize := by
    rw [add_comm, add_mul_mod_self_right, mod_eq_of_lt hlt]
  simp only [calcPqVectorReadParams, calcPqVectorOffsetBytes, h, if_true, hdiv, hmod]
  rfl

/-- The blocks a vector begins and ends in, in a file that is not rearranged. -/
def firstBlock : ℕ := r.vectorPos id / r.blockSize

def lastBlock : ℕ := (r.vectorPos id + r.pqVectorSize - 1) / r.blockSize

theorem firstBlock_le : r.firstBlock id ≤ r.lastBlock id := by
  have := r.vector_pos
  exact Nat.div_le_div_right (by omega)

theorem sectorsPerBlock_mul : r.blockSize / sectorSize * sectorSize = r.blockSize :=
  Nat.div_mul_cancel r.sector_dvd_block

theorem sectorsPerBlock_pos : 0 < r.blockSize / sectorSize :=
  div_pos (le_of_dvd r.block_pos r.sector_dvd_block) (by decide)

theorem readParams_blocks (h : r.rearranged = false) :
    r.calcPqVectorReadParams id =
      ⟨r.firstBlock id * (r.blockSize / sectorSize),
        (r.lastBlock id + 1) * (r.blockSize / sectorSize) - 1,
        r.vectorPos id - r.firstBlock id * (r.blockSize / sectorSize) * sectorSize⟩ := by
  simp [calcPqVectorReadParams, firstBlock, lastBlock, vectorPos, h]

/-- The sectors that are read for a vector. -/
def readSectors : ℕ :=
  (r.calcPqVectorReadParams id).toSector - (r.calcPqVectorReadParams id).fromSector + 1

theorem readSectors_rearranged (h : r.rearranged = true) :
    r.readSectors id = r.rearrangedPqSectorsPerPage := by
  have := r.sectorsPerPage_pos h
  rw [readSectors, r.readParams_rearranged id h]
  dsimp only
  omega

theorem readSectors_blocks (h : r.rearranged = false) :
    r.readSectors id = (r.lastBlock id - r.firstBlock id + 1) * (r.blockSize / sectorSize) := by
  have hpos := r.sectorsPerBlock_pos
  have hle := r.firstBlock_le id
  rw [readSectors, r.readParams_blocks id h]
  dsimp only
  obtain ⟨d, hd⟩ := Nat.exists_eq_add_of_le hle
  rw [hd, Nat.add_sub_cancel_left]
  have h1 : (r.firstBlock id + d + 1) * (r.blockSize / sectorSize) =
      r.firstBlock id * (r.blockSize / sectorSize) + (d + 1) * (r.blockSize / sectorSize) := by ring
  have h2 : (d + 1) * (r.blockSize / sectorSize) =
      d * (r.blockSize / sectorSize) + r.blockSize / sectorSize := by ring
  omega

theorem buffOffset_spec :
    (r.calcPqVectorReadParams id).fromSector * sectorSize +
      (r.calcPqVectorReadParams id).buffOffset = r.vectorPos id := by
  cases h : r.rearranged with
  | true =>
    rw [r.readParams_rearranged id h]
    simp only [vectorPos, calcPqVectorOffsetBytes, h, if_true, ← r.sectorsPerPage_mul h, sectorLen,
      sectorSize]
    ring
  | false =>
    rw [r.readParams_blocks id h]
    rw [mul_assoc, r.sectorsPerBlock_mul]
    exact Nat.add_sub_cancel' (div_mul_le_self ..)

theorem buffOffset_add_le :
    (r.calcPqVectorReadParams id).buffOffset + r.pqVectorSize ≤ r.readSectors id * sectorSize := by
  cases h : r.rearranged with
  | true =>
    rw [r.readSectors_rearranged id h, r.sectorsPerPage_mul h, r.readParams_rearranged id h]
    exact r.vector_end_le id h
  | false =>
    have hspec := r.buffOffset_spec id
    have hlast : r.vectorPos id + r.pqVectorSize - 1 < r.blockSize * (r.lastBlock id + 1) :=
      lt_mul_div_succ _ r.block_pos
    obtain ⟨d, hd⟩ := Nat.exists_eq_add_of_le (r.firstBlock_le id)
    have hfrom : (r.calcPqVectorReadParams id).fromSector * sectorSize =
        r.firstBlock id * r.blockSize := by
      rw [r.readParams_blocks id h, Nat.mul_assoc, r.sectorsPerBlock_mul]
    have hsplit : r.blockSize * (r.firstBlock id + d + 1) =
        r.firstBlock id * r.blockSize + (d + 1) * r.blockSize := by ring
    rw [r.readSectors_blocks id h, Nat.mul_assoc, r.sectorsPerBlock_mul, hd, Nat.add_sub_cancel_left]
    rw [hd] at hlast
    omega

theorem readParams_of_page (h : r.rearranged = true)
    (hpage : (r.calcPqVectorReadParams id).fromSector / r.rearrangedPqSectorsPerPage =
      (r.calcPqVectorReadParams id').fromSector / r.rearrangedPqSectorsPerPage) :
    (r.calcPqVectorReadParams id).fromSector = (r.calcPqVectorReadParams id').fromSector ∧
    (r.calcPqVectorReadParams id).toSector = (r.calcPqVectorReadParams id').toSector := by
  have hpos := r.sectorsPerPage_pos h
  rw [r.readParams_rearranged id h, r.readParams_rearranged id' h] at hpage ⊢
  simp only [add_mul_div_right _ _ hpos] at hpage
  have hq := add_left_cancel hpage
  exact ⟨by simp only [hq], by simp only [hq]⟩

/-- The read of a vector fits into a data buffer: so it is in a rearranged file, and elsewhere if the
blocks that the vector is in are no longer than a buffer. -/
def Fits : Prop :=
  r.rearranged = true ∨
    (r.lastBlock id - r.firstBlock id + 1) * (r.blockSize / sectorSize) ≤
      (r.pqVectorSize - 1) / sectorSize + 2

theorem readSectors_le_iff : r.readSectors id ≤ r.maxIoSizeSectors ↔ r.Fits id := by
  cases h : r.rearranged with
  | true => simp [Fits, maxIoSizeSectors, h, r.readSectors_rearranged id h]
  | false => simp [Fits, maxIoSizeSectors, h, r.readSectors_blocks id h]

end Reader

/-! ### The page cache -/

variable {B : Type} {r : Reader} {c c' : Context B}

/-- The map and the list hold the same pages, each once; only a rearranged file has any. -/
structure CacheOk (r : Reader) (c : Context B) : Prop where
  cached : ∀ page node, c.cachedDataBuffers page = some node ↔
    node ∈ c.lruList ∧ node.pageId = page
  pages : (c.lruList.map PageCacheNode.pageId).Nodup
  off : c.caching = false → c.lruList = []
  rearranged : c.caching = true → r.rearranged = true

/-- The buffers that are free or in the page cache. -/
def Context.idleBuffers (c : Context B) : List ℕ :=
  c.freeDataBuffers ++ c.lruList.map PageCacheNode.buff

/-- What a submit leaves alone; the page cache only gets smaller. -/
structure Same (c c' : Context B) : Prop where
  maxIos : c'.maxIos = c.maxIos
  pageCacheSizeBytes : c'.pageCacheSizeBytes = c.pageCacheSizeBytes
  mem : c'.mem = c.mem
  nodes : ∀ node ∈ c'.lruList, node ∈ c.lruList

theorem Same.caching (h : Same c c') : c'.caching = c.caching := by
  rw [Context.caching, Context.caching, h.pageCacheSizeBytes]

@[simp] theorem setIo_ioData_self (c : Context B) (i : ℕ) (io : IoData) : (c.setIo i io).ioData i = io :=
  Function.update_self ..

theorem setIo_ioData_of_ne (c : Context B) {i x : ℕ} (io : IoData) (h : x ≠ i) :
    (c.setIo i io).ioData x = c.ioData x :=
  update_of_ne h ..

theorem CacheOk.perm (h : CacheOk r c) {lruList : List PageCacheNode}
    (hperm : lruList.Perm c.lruList) : CacheOk r { c with lruList } where
  cached page node := by rw [hperm.mem_iff]; exact h.cached page node
  pages := (hperm.map _).nodup_iff.2 h.pages
  off hc := by
    have hnil := h.off hc
    rw [hnil] at hperm
    exact hperm.eq_nil
  rearranged := h.rearranged

/-- A buffer that is got was free, or that of the oldest page. -/
structure GotBuffer (c : Context B) (buff : ℕ) (c' : Context B) : Prop where
  perm : c.idleBuffers.Perm (buff :: c'.idleBuffers)
  lru : c'.lruList = c.lruList ∨ c.freeDataBuffers = [] ∧ ∃ node, c.lruList = node :: c'.lruList
  cached : ∀ page, c.cachedDataBuffers page = none → c'.cachedDataBuffers page = none

theorem CacheOk.getFreeDataBuffer (h : CacheOk r c) {buff : ℕ}
    (hget : c.getFreeDataBuffer = some (buff, c')) : CacheOk r c' ∧ GotBuffer c buff c' ∧
      ∃ free cached lru, c' = { c with
        freeDataBuffers := free
        cachedDataBuffers := cached
        lruList := lru } := by
  unfold Context.getFreeDataBuffer at hget
  split at hget
  · rename_i free hfree
    cases hget
    refine ⟨⟨h.cached, h.pages, h.off, h.rearranged⟩, ⟨?_, .inl rfl, fun _ hp => hp⟩,
      _, _, _, rfl⟩
    simp only [Context.idleBuffers, hfree]
    exact Perm.refl _
  · rename_i hfree
    split_ifs at hget with hc
    split at hget
    · rename_i node lru hlru
      cases hget
      have hpages := h.pages
      rw [hlru, map_cons, nodup_cons] at hpages
      refine ⟨⟨fun page x => ?_, hpages.2, fun hoff => ?_, h.rearranged⟩, ⟨?_,
        .inr ⟨hfree, node, hlru⟩, fun page hp => ?_⟩, _, _, _, rfl⟩
      · dsimp only
        by_cases hpage : page = node.pageId
        · rw [hpage, update_self]
          constructor
          · intro hx
            cases hx
          · rintro ⟨hx, hxp⟩
            exact absurd (mem_map.2 ⟨x, hx, hxp⟩) hpages.1
        · rw [update_of_ne hpage, h.cached page x, hlru, mem_cons]
          constructor
          · rintro ⟨rfl | hx, rfl⟩
            · exact absurd rfl hpage
            · exact ⟨hx, rfl⟩
          · exact fun hx => ⟨.inr hx.1, hx.2⟩
      · exact absurd (hoff.symm.trans hc) (by decide)
      · simp only [Context.idleBuffers, hlru, hfree]
        exact Perm.refl _
      · dsimp only
        by_cases hpage : page = node.pageId
        · rw [hpage, update_self]
        · rwa [update_of_ne hpage]
    · cases hget

theorem getFreeDataBuffer_isSome (h : CacheOk r c) (hne : c.idleBuffers ≠ []) :
    ∃ buff c', c.getFreeDataBuffer = some (buff, c') := by
  unfold Context.getFreeDataBuffer
  split
  · exact ⟨_, _, rfl⟩
  · rename_i hfree
    have hlru : c.lruList ≠ [] := by
      intro hlru
      rw [Context.idleBuffers, hfree, hlru] at hne
      exact hne rfl
    have hc : c.caching = true := by
      by_contra hc
      exact hlru (h.off (by simpa using hc))
    rw [if_pos hc]
    split
    · exact ⟨_, _, rfl⟩
    · rename_i hnil
      exact absurd hnil hlru

/-! ### The first loop -/

/-- The parameters of a vector have been set. -/
structure IoData.Ok (r : Reader) (i id : ℕ) (io : IoData) : Prop where
  fromSector : io.fromSector = (r.calcPqVectorReadParams id).fromSector
  toSector : io.toSector = (r.calcPqVectorReadParams id).toSector
  buffOffset : io.buffOffset = (r.calcPqVectorReadParams id).buffOffset
  vectorIndex : io.vectorIndex = i

variable {i id x : ℕ} {ids : List ℕ} {p p' : Pass B}

theorem setParams_of_fits (h : r.Fits id) : setParams r i id p = .ok { p with
    ctx := p.ctx.setIo i ((p.ctx.ioData i).setParams r i id)
    readSectorCount := r.readSectors id } :=
  if_pos ((r.readSectors_le_iff id).2 h)

theorem setParams_of_not_fits (h : ¬ r.Fits id) : setParams r i id p = .error .assertion :=
  if_neg (h ∘ (r.readSectors_le_iff id).1)

theorem IoData.setParams_ok (io : IoData) : (io.setParams r i id).Ok r i id := ⟨rfl, rfl, rfl, rfl⟩

/-- The id is in the page cache. -/
def Context.hit (c : Context B) (x : ℕ) : Prop := c.caching = true ∧ (c.ioData x).inPageCache = true

/-- The page of a hit is in the list of nodes. -/
def Context.nodeOf (r : Reader) (c : Context B) (x : ℕ) : PageCacheNode :=
  ⟨pageId r (c.ioData x), (c.ioData x).buff⟩

/-- After `i` lookups: the ids that are in the cache are handed out, and their pages are the newest. -/
structure CacheInv (r : Reader) (ids : List ℕ) (c : Context B) (i : ℕ) (p : Pass B) : Prop where
  same : Same c p.ctx
  cache : CacheOk r p.ctx
  idle : p.ctx.idleBuffers.Perm c.idleBuffers
  params : ∀ x id, x < i → ids[x]? = some id → (p.ctx.ioData x).Ok r x id
  nodup : p.ctx.completionEvents.Nodup
  events : ∀ x, x ∈ p.ctx.completionEvents ↔ x < i ∧ (p.ctx.ioData x).inPageCache = true
  hits : ∃ old hits, p.ctx.lruList = old ++ hits ∧ hits.length ≤ p.ctx.completionEvents.length ∧
    ∀ x < i, (p.ctx.ioData x).inPageCache = true → p.ctx.nodeOf r x ∈ hits
  root : ∀ x < i, (p.ctx.ioData x).inPageCache = true → (p.ctx.ioData x).rootIo = false
  miss : ∀ x < i, (p.ctx.ioData x).inPageCache = false →
    p.ctx.cachedDataBuffers (pageId r (p.ctx.ioData x)) = none
  start : p.ctx.pendingIoCount = 0 ∧ p.iocbs = [] ∧ (∀ f, p.sectorsMap f = none) ∧
    (0 < i → p.readSectorCount = r.rearrangedPqSectorsPerPage)

/-- The list of pages with a node moved to its back, and the pages that have to stay at the back. -/
theorem erase_append_split {old hits : List PageCacheNode} {node : PageCacheNode} :
    ∃ old' hits', (old ++ hits).erase node ++ [node] = old' ++ hits' ∧
      hits'.length ≤ hits.length + 1 ∧ node ∈ hits' ∧ ∀ x ∈ hits, x ∈ hits' := by
  by_cases hold : node ∈ old
  · refine ⟨old.erase node, hits ++ [node], ?_, by simp, by simp, fun x hx => by simp [hx]⟩
    rw [erase_append_left _ hold, append_assoc]
  · refine ⟨old, hits.erase node ++ [node], ?_, ?_, by simp, fun x hx => ?_⟩
    · rw [erase_append_right _ hold, append_assoc]
    · rw [length_append]
      exact Nat.add_le_add_right (length_erase_le ..) 1
    · by_cases he : x = node
      · simp [he]
      · exact mem_append_left _ ((mem_erase_of_ne he).2 hx)

variable {n : ℕ}

theorem lookupStep_of_hit {io : IoData} {node : PageCacheNode}
    (hnode : p.ctx.cachedDataBuffers (pageId r io) = some node) :
    PqReader.lookupStep r i { p with ctx := p.ctx.setIo i io, readSectorCount := n } =
      { p with
        ctx := { p.ctx with
          lruList := p.ctx.lruList.erase node ++ [node]
          completionEvents := io.vectorIndex :: p.ctx.completionEvents
          ioData := Function.update p.ctx.ioData i
            { io with inPageCache := true, hooked := none, rootIo := false, buff := node.buff } }
        readSectorCount := n } := by
  have hnode' : (p.ctx.setIo i io).cachedDataBuffers (pageId r io) = some node := hnode
  simp only [PqReader.lookupStep, setIo_ioData_self, hnode']
  simp only [Context.setIo, Context.addPendingIoCompletionEvent, update_idem]

theorem lookupStep_of_miss {io : IoData} (hnode : p.ctx.cachedDataBuffers (pageId r io) = none) :
    PqReader.lookupStep r i { p with ctx := p.ctx.setIo i io, readSectorCount := n } =
      { p with ctx := p.ctx.setIo i { io with inPageCache := false }, readSectorCount := n } := by
  have hnode' : (p.ctx.setIo i io).cachedDataBuffers (pageId r io) = none := hnode
  simp only [PqReader.lookupStep, setIo_ioData_self, hnode']
  simp only [Context.setIo, update_idem]

theorem CacheInv.lookupStep (h : CacheInv r ids c i p) (hr : r.rearranged = true)
    (hid : ids[i]? = some id) :
    CacheInv r ids c (i + 1) (lookupStep r i { p with
      ctx := p.ctx.setIo i ((p.ctx.ioData i).setParams r i id)
      readSectorCount := r.readSectors id }) := by
  set io := (p.ctx.ioData i).setParams r i id with hio
  have hsectors := r.readSectors_rearranged id hr
  have hnot : i ∉ p.ctx.completionEvents := fun hi => absurd ((h.events i).1 hi).1 (Nat.lt_irrefl i)
  have hlt : ∀ x, x < i + 1 → x ≠ i → x < i := by omega
  cases hnode : p.ctx.cachedDataBuffers (pageId r io) with
  | some node =>
    rw [lookupStep_of_hit hnode]
    obtain ⟨hmem, hpage⟩ := (h.cache.cached _ node).1 hnode
    have hperm : (p.ctx.lruList.erase node ++ [node]).Perm p.ctx.lruList :=
      (perm_append_singleton node _).trans (perm_cons_erase hmem).symm
    have hcache := h.cache.perm hperm
    set io' : IoData := { io with inPageCache := true, hooked := none, rootIo := false, buff := node.buff }
    refine ⟨⟨h.same.maxIos, h.same.pageCacheSizeBytes, h.same.mem,
        fun x hx => h.same.nodes x (hperm.mem_iff.1 hx)⟩,
      ⟨hcache.cached, hcache.pages, hcache.off, hcache.rearranged⟩, ?_, fun x id' hx hid' => ?_,
      nodup_cons.2 ⟨hnot, h.nodup⟩, fun x => ?_, ?_, fun x hx hc => ?_, fun x hx hc => ?_,
      ⟨h.start.1, h.start.2.1, h.start.2.2.1, fun _ => hsectors⟩⟩
    · exact ((Perm.refl _).append (hperm.map _)).trans h.idle
    · by_cases hxi : x = i
      · subst hxi
        obtain rfl := Option.some.inj (hid.symm.trans hid')
        dsimp only
        rw [update_self]
        exact ⟨rfl, rfl, rfl, rfl⟩
      · dsimp only
        rw [update_of_ne hxi]
        exact h.params x id' (hlt x hx hxi) hid'
    · by_cases hxi : x = i
      · subst hxi
        simp [io', io, IoData.setParams]
      · have : io.vectorIndex = i := rfl
        dsimp only
        rw [update_of_ne hxi, mem_cons, h.events x]
        constructor
        · exact fun hx => ⟨by have := hx.resolve_left hxi; omega, (hx.resolve_left hxi).2⟩
        · exact fun hx => .inr ⟨hlt x hx.1 hxi, hx.2⟩
    · obtain ⟨old, hits, hlru, hlen, hhits⟩ := h.hits
      obtain ⟨old', hits', hsplit, hlen', hnode', hsub⟩ :=
        @erase_append_split old hits node
      refine ⟨old', hits', ?_, ?_, fun x hx hc => ?_⟩
      · dsimp only
        rw [hlru, hsplit]
      · exact hlen'.trans (Nat.add_le_add_right hlen 1)
      · by_cases hxi : x = i
        · subst hxi
          have heq : Context.nodeOf r { p.ctx with
              lruList := p.ctx.lruList.erase node ++ [node]
              completionEvents := io.vectorIndex :: p.ctx.completionEvents
              ioData := Function.update p.ctx.ioData x io' } x = node := by
            simp only [Context.nodeOf, update_self]
            rw [show pageId r io' = node.pageId from hpage.symm]
          rw [heq]
          exact hnode'
        · dsimp only at hc
          rw [update_of_ne hxi] at hc
          have := hsub _ (hhits x (hlt x hx hxi) hc)
          simpa only [Context.nodeOf, update_of_ne hxi] using this
    · by_cases hxi : x = i
      · subst hxi
        simp [io']
      · dsimp only at hc ⊢
        rw [update_of_ne hxi] at hc ⊢
        exact h.root x (hlt x hx hxi) hc
    · by_cases hxi : x = i
      · subst hxi
        dsimp only at hc
        rw [update_self] at hc
        cases hc
      · dsimp only at hc ⊢
        rw [update_of_ne hxi] at hc ⊢
        exact h.miss x (hlt x hx hxi) hc
  | none =>
    rw [lookupStep_of_miss hnode]
    refine ⟨⟨h.same.maxIos, h.same.pageCacheSizeBytes, h.same.mem, h.same.nodes⟩,
      ⟨h.cache.cached, h.cache.pages, h.cache.off, h.cache.rearranged⟩, h.idle, fun x id' hx hid' => ?_,
      h.nodup, fun x => ?_, ?_, fun x hx hc => ?_, fun x hx hc => ?_,
      ⟨h.start.1, h.start.2.1, h.start.2.2.1, fun _ => hsectors⟩⟩
    · by_cases hxi : x = i
      · subst hxi
        obtain rfl := Option.some.inj (hid.symm.trans hid')
        rw [setIo_ioData_self]
        exact ⟨rfl, rfl, rfl, rfl⟩
      · rw [setIo_ioData_of_ne _ _ hxi]
        exact h.params x id' (hlt x hx hxi) hid'
    · by_cases hxi : x = i
      · subst hxi
        simp [Context.setIo, hnot]
      · rw [setIo_ioData_of_ne _ _ hxi]
        refine (h.events x).trans ⟨fun hx => ⟨by omega, hx.2⟩, fun hx => ⟨hlt x hx.1 hxi, hx.2⟩⟩
    · obtain ⟨old, hits, hlru, hlen, hhits⟩ := h.hits
      refine ⟨old, hits, hlru, hlen, fun x hx hc => ?_⟩
      by_cases hxi : x = i
      · subst hxi
        rw [setIo_ioData_self] at hc
        cases hc
      · rw [setIo_ioData_of_ne _ _ hxi] at hc
        simpa only [Context.nodeOf, setIo_ioData_of_ne _ _ hxi] using hhits x (hlt x hx hxi) hc
    · by_cases hxi : x = i
      · subst hxi
        rw [setIo_ioData_self] at hc
        cases hc
      · rw [setIo_ioData_of_ne _ _ hxi] at hc ⊢
        exact h.root x (hlt x hx hxi) hc
    · by_cases hxi : x = i
      · subst hxi
        rw [setIo_ioData_self]
        exact hnode
      · rw [setIo_ioData_of_ne _ _ hxi] at hc ⊢
        exact h.miss x (hlt x hx hxi) hc

theorem cachePass_spec (h : CacheInv r ids c i p) (hr : r.rearranged = true) {rest : List ℕ}
    (hrest : ids.drop i = rest) (hi : i ≤ ids.length) :
    ∃ p', cachePass r i rest p = .ok p' ∧ CacheInv r ids c ids.length p' := by
  induction rest generalizing i p with
  | nil =>
    have : i = ids.length := le_antisymm hi (drop_eq_nil_iff.1 hrest)
    exact ⟨p, rfl, this ▸ h⟩
  | cons id rest ih =>
    have hlt : i < ids.length := by
      by_contra hge
      rw [drop_eq_nil_of_le (Nat.le_of_not_lt hge)] at hrest
      cases hrest
    have hid : ids[i]? = some id := by
      have := congrArg head? hrest
      rwa [head?_drop] at this
    have hdrop : ids.drop (i + 1) = rest := by
      rw [← drop_drop, hrest]
      rfl
    obtain ⟨p', hp', hinv⟩ := ih (h.lookupStep hr hid) hdrop hlt
    refine ⟨p', ?_, hinv⟩
    rw [cachePass, setParams_of_fits (.inl hr)]
    exact hp'

/-! ### The second loop -/

def Context.next (c : Context B) (x : ℕ) : Option ℕ := (c.ioData x).hooked

/-- After `i` of the ids: each is in the page cache or in the chain of one of the roots, which has the
read of its sectors. -/
structure BatchOk (r : Reader) (ids : List ℕ) (i : ℕ) (c : Context B) (iocbs : List Iocb)
    (chain : ℕ → List ℕ) : Prop where
  cache : CacheOk r c
  owners : (c.idleBuffers ++ iocbs.map Iocb.buff).Perm
    (List.range (nitems r c.maxIos c.pageCacheSizeBytes))
  params : ∀ x id, ids[x]? = some id → c.caching = true ∨ x < i → (c.ioData x).Ok r x id
  roots : iocbs.map Iocb.data = (List.range i).filter fun x => (c.ioData x).rootIo
  linked : ∀ x ∈ iocbs.map Iocb.data, Linked c.next x (chain x)
  shared : ∀ cb ∈ iocbs, ∀ x ∈ chain cb.data,
    (c.ioData x).fromSector = (c.ioData cb.data).fromSector ∧
    (c.ioData x).toSector ≤ (c.ioData cb.data).toSector ∧ (c.ioData x).buff = cb.buff
  iocb : ∀ cb ∈ iocbs, cb.offset = (c.ioData cb.data).fromSector * sectorSize ∧
    cb.len = ((c.ioData cb.data).toSector - (c.ioData cb.data).fromSector + 1) * sectorSize
  hits : ∀ x < ids.length, c.hit x → c.nodeOf r x ∈ c.lruList ∧ (c.ioData x).rootIo = false
  fresh : c.caching = true → ∀ x < ids.length, ¬ c.hit x →
    c.cachedDataBuffers (pageId r (c.ioData x)) = none
  distinct : c.caching = true → ∀ x ∈ iocbs.map Iocb.data, ∀ y ∈ iocbs.map Iocb.data,
    (c.ioData x).fromSector = (c.ioData y).fromSector → x = y

/-- The ids handed out, and those in the chains. -/
def Pass.handled (p : Pass B) (chain : ℕ → List ℕ) : List ℕ :=
  p.ctx.completionEvents ++ (p.iocbs.map Iocb.data).flatMap chain

structure MissInv (r : Reader) (ids : List ℕ) (c : Context B) (i : ℕ) (p : Pass B)
    (chain : ℕ → List ℕ) : Prop where
  same : Same c p.ctx
  batch : BatchOk r ids i p.ctx p.iocbs chain
  nodup : (p.handled chain).Nodup
  handled : ∀ x, x ∈ p.handled chain ↔ x < ids.length ∧ (x < i ∨ p.ctx.hit x)
  events : ∀ x ∈ p.ctx.completionEvents, p.ctx.hit x
  pending : p.ctx.pendingIoCount = p.iocbs.length
  newest : ∃ old hits, p.ctx.lruList = old ++ hits ∧ hits.length ≤ p.ctx.completionEvents.length ∧
    ∀ x < ids.length, p.ctx.hit x → p.ctx.nodeOf r x ∈ hits
  mapped : ∀ f j, p.sectorsMap f = some j → j ∈ p.iocbs.map Iocb.data ∧
    (p.ctx.ioData j).fromSector = f
  found : ∀ x ∈ p.iocbs.map Iocb.data, p.sectorsMap (p.ctx.ioData x).fromSector ≠ none
  sectors : p.ctx.caching = true → 0 < ids.length → p.readSectorCount = r.rearrangedPqSectorsPerPage

theorem flatMap_update_perm {chain : ℕ → List ℕ} {roots l : List ℕ} {j : ℕ} (hnodup : roots.Nodup)
    (hj : j ∈ roots) (hl : l.Perm (i :: chain j)) :
    (roots.flatMap (Function.update chain j l)).Perm (i :: roots.flatMap chain) := by
  obtain ⟨s, t, rfl⟩ := append_of_mem hj
  obtain ⟨-, ht, hst⟩ := nodup_append.1 hnodup
  have hjs : ∀ x ∈ s, x ≠ j := fun x hx => hst x hx j mem_cons_self
  have hjt : ∀ x ∈ t, x ≠ j := fun x hx he => (nodup_cons.1 ht).1 (he ▸ hx)
  have hs : s.flatMap (Function.update chain j l) = s.flatMap chain :=
    flatMap_congr fun x hx => update_of_ne (hjs x hx) ..
  have ht : t.flatMap (Function.update chain j l) = t.flatMap chain :=
    flatMap_congr fun x hx => update_of_ne (hjt x hx) ..
  rw [flatMap_append, flatMap_append, flatMap_cons, hs, ht,
    update_self]
  exact ((Perm.refl _).append (hl.append_right _)).trans perm_middle

theorem filter_range_succ {f f' : ℕ → Bool} (h : ∀ x < i, f' x = f x) :
    (List.range (i + 1)).filter f' = (List.range i).filter f ++ bif f' i then [i] else [] := by
  have hcongr : (List.range i).filter f' = (List.range i).filter f :=
    filter_congr fun x hx => h x (List.mem_range.1 hx)
  rw [range_succ, filter_append, filter_singleton, hcongr]

theorem eq_some_of_insert {m : ℕ → Option ℕ} {f f' k : ℕ}
    (h : (if m f = none then Function.update m f (some i) else m) f' = some k) :
    m f' = some k ∨ k = i ∧ f' = f := by
  split_ifs at h with hnone
  · by_cases hf : f' = f
    · rw [hf, update_self] at h
      exact .inr ⟨(Option.some.inj h).symm, hf⟩
    · rw [update_of_ne hf] at h
      exact .inl h
  · exact .inl h

theorem insert_ne_none {m : ℕ → Option ℕ} {f f' : ℕ} (h : m f' ≠ none ∨ f' = f) :
    (if m f = none then Function.update m f (some i) else m) f' ≠ none := by
  split_ifs with hnone
  · by_cases hf : f' = f
    · rw [hf, update_self]
      exact Option.some_ne_none i
    · rw [update_of_ne hf]
      exact h.resolve_right hf
  · obtain h | rfl := h
    · exact h
    · exact hnone

/-- Each id keeps its parameters, and all but `i` their buffers, and whether they are roots. -/
structure SameIo (c c' : Context B) (i : ℕ) : Prop where
  caching : c'.caching = c.caching
  fromSector : ∀ x, (c'.ioData x).fromSector = (c.ioData x).fromSector
  toSector : ∀ x, (c'.ioData x).toSector = (c.ioData x).toSector
  buffOffset : ∀ x, (c'.ioData x).buffOffset = (c.ioData x).buffOffset
  vectorIndex : ∀ x, (c'.ioData x).vectorIndex = (c.ioData x).vectorIndex
  inPageCache : ∀ x, (c'.ioData x).inPageCache = (c.ioData x).inPageCache
  buff : ∀ x, x ≠ i → (c'.ioData x).buff = (c.ioData x).buff
  rootIo : ∀ x, x ≠ i → (c'.ioData x).rootIo = (c.ioData x).rootIo

theorem SameIo.hit (h : SameIo c c' i) (x : ℕ) : c'.hit x ↔ c.hit x := by
  rw [Context.hit, Context.hit, h.caching, h.inPageCache]

theorem SameIo.pageId (h : SameIo c c' i) (x : ℕ) :
    PqReader.pageId r (c'.ioData x) = PqReader.pageId r (c.ioData x) := by
  rw [PqReader.pageId, PqReader.pageId, h.fromSector]

theorem SameIo.nodeOf (h : SameIo c c' i) (hi : ¬ c.hit i) (hx : c.hit x) :
    c'.nodeOf r x = c.nodeOf r x := by
  rw [Context.nodeOf, Context.nodeOf, h.pageId, h.buff x fun he => hi (he ▸ hx)]

theorem SameIo.ok (h : SameIo c c' i) (hok : (c.ioData x).Ok r x id) : (c'.ioData x).Ok r x id where
  fromSector := (h.fromSector x).trans hok.fromSector
  toSector := (h.toSector x).trans hok.toSector
  buffOffset := (h.buffOffset x).trans hok.buffOffset
  vectorIndex := (h.vectorIndex x).trans hok.vectorIndex

theorem sameIo_of_self (hc : c'.caching = c.caching) {hooked : Option ℕ} {rootIo : Bool} {buff : ℕ}
    (hself : c'.ioData i = { c.ioData i with hooked, rootIo, buff })
    (hother : ∀ x, x ≠ i → c'.ioData x = c.ioData x) : SameIo c c' i := by
  have hfield : ∀ {α : Type} (f : IoData → α), f (c'.ioData i) = f (c.ioData i) →
      ∀ x, f (c'.ioData x) = f (c.ioData x) := by
    intro α f hf x
    by_cases hx : x = i
    · rw [hx, hf]
    · rw [hother x hx]
  exact {
    caching := hc
    fromSector := hfield IoData.fromSector (by rw [hself])
    toSector := hfield IoData.toSector (by rw [hself])
    buffOffset := hfield IoData.buffOffset (by rw [hself])
    vectorIndex := hfield IoData.vectorIndex (by rw [hself])
    inPageCache := hfield IoData.inPageCache (by rw [hself])
    buff := fun x hx => by rw [hother x hx]
    rootIo := fun x hx => by rw [hother x hx] }

theorem SameIo.newest (h : SameIo c c' i) (hi : ¬ c.hit i)
    (hlru : ∃ old hits, c'.lruList = old ++ hits ∧ hits.length ≤ n ∧ ∀ x < ids.length, c.hit x → c.nodeOf r x ∈ hits) :
    ∃ old hits, c'.lruList = old ++ hits ∧ hits.length ≤ n ∧
      ∀ x < ids.length, c'.hit x → c'.nodeOf r x ∈ hits := by
  obtain ⟨old, hits, hlru, hlen, hhits⟩ := hlru
  refine ⟨old, hits, hlru, hlen, fun x hx hh => ?_⟩
  have hh := (h.hit x).1 hh
  rw [h.nodeOf hi hh]
  exact hhits x hx hh

variable {chain : ℕ → List ℕ}

theorem BatchOk.root_lt {iocbs : List Iocb} (h : BatchOk r ids i c iocbs chain)
    (hx : x ∈ iocbs.map Iocb.data) : x < i := by
  rw [h.roots] at hx
  exact List.mem_range.1 (mem_filter.1 hx).1

theorem BatchOk.roots_nodup {iocbs : List Iocb} (h : BatchOk r ids i c iocbs chain) :
    (iocbs.map Iocb.data).Nodup := by
  rw [h.roots]
  exact nodup_range.filter _

namespace MissInv

theorem not_handled (h : MissInv r ids c i p chain) (hi : ¬ p.ctx.hit i) : i ∉ p.handled chain := by
  intro hmem
  exact hi (((h.handled i).1 hmem).2.resolve_left (Nat.lt_irrefl i))

variable {j : ℕ}

theorem not_mem_chain (h : MissInv r ids c i p chain) (hi : ¬ p.ctx.hit i)
    (hj : j ∈ p.iocbs.map Iocb.data) : i ∉ chain j :=
  fun hx => h.not_handled hi (mem_append_right _ (mem_flatMap.2 ⟨j, hj, hx⟩))

theorem chain_disjoint (h : MissInv r ids c i p chain) {k : ℕ} (hj : j ∈ p.iocbs.map Iocb.data)
    (hk : k ∈ p.iocbs.map Iocb.data) (hjk : j ≠ k) : Disjoint (chain j) (chain k) := by
  have hnodup := (nodup_append.1 h.nodup).2.1
  have : Std.Symm (onFun Disjoint chain) :=
    ⟨fun _ _ hd _ ha hb => hd hb ha⟩
  exact (nodup_flatMap.1 hnodup).2.forall hj hk hjk

theorem params_succ (h : MissInv r ids c i p chain)
    (hok : ∀ id, ids[i]? = some id → (p.ctx.ioData i).Ok r i id) {x id : ℕ}
    (hid : ids[x]? = some id) (hx : p.ctx.caching = true ∨ x < i + 1) :
    (p.ctx.ioData x).Ok r x id := by
  by_cases hxi : x = i
  · exact hxi ▸ hok id (hxi ▸ hid)
  · exact h.batch.params x id hid (hx.imp_right fun hx => by omega)

theorem handled_succ (h : MissInv r ids c i p chain) (hi : i < ids.length) (hhit : ¬ p.ctx.hit i)
    {l : List ℕ} (hl : l.Perm (i :: p.handled chain)) :
    l.Nodup ∧ ∀ x, x ∈ l ↔ x < ids.length ∧ (x < i + 1 ∨ p.ctx.hit x) := by
  refine ⟨hl.nodup_iff.2 (nodup_cons.2 ⟨h.not_handled hhit, h.nodup⟩), fun x => ?_⟩
  rw [hl.mem_iff, mem_cons, h.handled x]
  constructor
  · rintro (rfl | hx)
    · exact ⟨hi, .inl (lt_succ_self x)⟩
    · exact ⟨hx.1, hx.2.imp_left lt_succ_of_lt⟩
  · rintro ⟨hx, hxi | hh⟩
    · exact (Nat.lt_succ_iff_lt_or_eq.1 hxi).symm.imp_right fun hx' => ⟨hx, .inl hx'⟩
    · exact .inr ⟨hx, .inr hh⟩

theorem skip (h : MissInv r ids c i p chain) (hi : i < ids.length) (hhit : p.ctx.hit i) :
    MissInv r ids c (i + 1) p chain where
  same := h.same
  batch := { h.batch with
    params := fun x id hid _ => h.batch.params x id hid (.inl hhit.1)
    roots := by
      rw [filter_range_succ fun _ _ => rfl, (h.batch.hits i hi hhit).2, ← h.batch.roots]
      simp }
  nodup := h.nodup
  handled x := by
    rw [h.handled x]
    refine and_congr_right fun _ => ⟨Or.imp_left lt_succ_of_lt, fun hx => ?_⟩
    obtain hx | hx := hx
    · obtain hx | rfl := Nat.lt_succ_iff_lt_or_eq.1 hx
      · exact .inl hx
      · exact .inr hhit
    · exact .inr hx
  events := h.events
  pending := h.pending
  newest := h.newest
  mapped := h.mapped
  found := h.found
  sectors := h.sectors

theorem hookIo_ioData (c : Context B) {i : ℕ} (x : ℕ) (hij : i ≠ j) :
    (hookIo c i j).ioData x = { c.ioData x with
      hooked := hookAfter c.next j i x
      rootIo := if x = i then false else (c.ioData x).rootIo
      buff := if x = i then (c.ioData j).buff else (c.ioData x).buff } := by
  by_cases hxj : x = j
  · subst hxj
    simp [hookIo, hookAfter, Ne.symm hij]
  · by_cases hxi : x = i
    · subst hxi
      simp [hookIo, Context.setIo, hookAfter, hij, Context.next]
    · simp [hookIo, Context.setIo, hookAfter, hxi, hxj, Context.next]

theorem sameIo_hookIo (c : Context B) {i : ℕ} (hij : i ≠ j) : SameIo c (hookIo c i j) i where
  caching := rfl
  fromSector x := by rw [hookIo_ioData c x hij]
  toSector x := by rw [hookIo_ioData c x hij]
  buffOffset x := by rw [hookIo_ioData c x hij]
  vectorIndex x := by rw [hookIo_ioData c x hij]
  inPageCache x := by rw [hookIo_ioData c x hij]
  buff x hx := by
    rw [hookIo_ioData c x hij]
    exact if_neg hx
  rootIo x hx := by
    rw [hookIo_ioData c x hij]
    exact if_neg hx

theorem hook (h : MissInv r ids c i p chain) (hi : i < ids.length) (hhit : ¬ p.ctx.hit i)
    (hok : ∀ id, ids[i]? = some id → (p.ctx.ioData i).Ok r i id)
    (hmap : p.sectorsMap (p.ctx.ioData i).fromSector = some j)
    (hle : (p.ctx.ioData i).toSector ≤ (p.ctx.ioData j).toSector) :
    ∃ chain', MissInv r ids c (i + 1) { p with ctx := hookIo p.ctx i j } chain' := by
  obtain ⟨hj, hfrom⟩ := h.mapped _ _ hmap
  have hij : i ≠ j := (Nat.ne_of_lt (h.batch.root_lt hj)).symm
  obtain ⟨l, hl⟩ := (h.batch.linked j hj).exists_cons
  have hio := fun x => hookIo_ioData p.ctx x hij
  have hnotin := h.not_mem_chain hhit hj
  have hchainj : (chain j).Nodup :=
    (nodup_flatMap.1 (nodup_append.1 h.nodup).2.1).1 j hj
  set chain' := Function.update chain j (j :: i :: l) with hchain'
  have hjl : chain' j = j :: i :: l := update_self ..
  have hother : ∀ k, k ≠ j → chain' k = chain k := fun k hk => update_of_ne hk ..
  have hkept := sameIo_hookIo p.ctx hij
  have hperm : (Pass.handled { p with ctx := hookIo p.ctx i j } chain').Perm
      (i :: p.handled chain) := by
    have hcell : (j :: i :: l).Perm (i :: chain j) := by
      rw [hl]
      exact Perm.swap ..
    exact ((Perm.refl _).append
      (flatMap_update_perm h.batch.roots_nodup hj hcell)).trans perm_middle
  obtain ⟨hnodup, hhandled⟩ := h.handled_succ hi hhit hperm
  refine ⟨chain', ⟨h.same.maxIos, h.same.pageCacheSizeBytes, h.same.mem, h.same.nodes⟩,
    ⟨?_, h.batch.owners, fun x id hid hx => ?_, ?_, fun k hk => ?_, fun cb hcb x hx => ?_,
      fun cb hcb => ?_, fun x hx hh => ?_, fun hc x hx hh => ?_, fun hc x hx y hy hxy => ?_⟩,
    hnodup, fun x => ?_, fun x hx => (hkept.hit x).2 (h.events x hx), h.pending,
    hkept.newest hhit h.newest, fun f k hk => ?_, fun x hx => ?_, h.sectors⟩
  · exact ⟨h.batch.cache.cached, h.batch.cache.pages, h.batch.cache.off, h.batch.cache.rearranged⟩
  · exact hkept.ok (h.params_succ hok hid hx)
  · rw [filter_range_succ, ← h.batch.roots]
    · simp [hio]
    · intro x hx
      simp [hio, Nat.ne_of_lt hx]
  · have hnext : (hookIo p.ctx i j).next = hookAfter p.ctx.next j i := by
      funext x
      rw [Context.next, hio x]
    rw [hnext]
    by_cases hkj : k = j
    · subst hkj
      rw [hjl]
      exact (hl ▸ h.batch.linked k hk).hook (hl ▸ hchainj) (hl ▸ hnotin)
    · rw [hother k hkj]
      refine (h.batch.linked k hk).hook_other (fun hjk => ?_) (h.not_mem_chain hhit hk)
      exact h.chain_disjoint hk hj hkj hjk (h.batch.linked j hj).mem
  · have hdata : cb.data ∈ p.iocbs.map Iocb.data := mem_map_of_mem hcb
    simp only [hio]
    by_cases hcj : cb.data = j
    · obtain ⟨hbf, hbt, hbb⟩ := h.batch.shared cb hcb j (hcj ▸ (h.batch.linked j hj).mem)
      rw [hcj] at hx ⊢
      rw [hjl] at hx
      by_cases hxi : x = i
      · subst hxi
        rw [if_pos rfl]
        exact ⟨hfrom.symm, hle, hbb⟩
      · have hxc : x ∈ chain j := by
          rw [hl]
          simpa [hxi] using hx
        rw [if_neg hxi]
        simpa only [hcj] using h.batch.shared cb hcb x (hcj ▸ hxc)
    · rw [hother _ hcj] at hx
      have hxi : x ≠ i := ne_of_mem_of_not_mem hx (h.not_mem_chain hhit hdata)
      rw [if_neg hxi]
      exact h.batch.shared cb hcb x hx
  · simp only [hio]
    exact h.batch.iocb cb hcb
  · have hh := (hkept.hit x).1 hh
    obtain ⟨hnode, hroot⟩ := h.batch.hits x hx hh
    refine ⟨?_, (hkept.rootIo x fun he => hhit (he ▸ hh)).trans hroot⟩
    rw [hkept.nodeOf hhit hh]
    exact hnode
  · rw [hkept.pageId x]
    exact h.batch.fresh hc x hx (hh ∘ (hkept.hit x).2)
  · rw [hkept.fromSector, hkept.fromSector] at hxy
    exact h.batch.distinct hc x hx y hy hxy
  · rw [hhandled x, hkept.hit x]
  · exact (h.mapped f k hk).imp_right (hkept.fromSector k).trans
  · rw [hkept.fromSector]
    exact h.found x hx

theorem room (h : MissInv r ids c i p chain) (hi : i < ids.length) (hhit : ¬ p.ctx.hit i)
    (hmax : ids.length ≤ c.maxIos) : p.ctx.completionEvents.length < p.ctx.idleBuffers.length := by
  have hlt : (p.handled chain).length < ids.length := by
    have hsub : (i :: p.handled chain) ⊆ List.range ids.length := by
      intro x hx
      obtain rfl | hx := mem_cons.1 hx
      · exact List.mem_range.2 hi
      · exact List.mem_range.2 ((h.handled x).1 hx).1
    have := (subperm_of_subset (nodup_cons.2 ⟨h.not_handled hhit, h.nodup⟩) hsub).length_le
    rwa [length_range] at this
  have hroots : p.iocbs.length ≤ ((p.iocbs.map Iocb.data).flatMap chain).length := by
    have hsub : p.iocbs.map Iocb.data ⊆ (p.iocbs.map Iocb.data).flatMap chain := fun x hx =>
      mem_flatMap.2 ⟨x, hx, (h.batch.linked x hx).mem⟩
    have := (subperm_of_subset h.batch.roots_nodup hsub).length_le
    rwa [length_map] at this
  have howners := h.batch.owners.length_eq
  rw [length_append, length_map, length_range, h.same.maxIos] at howners
  have hitems : c.maxIos ≤ nitems r c.maxIos p.ctx.pageCacheSizeBytes := Nat.le_add_right ..
  rw [Pass.handled, length_append] at hlt
  omega

theorem newest_of_got (h : MissInv r ids c i p chain) (hi : i < ids.length) (hhit : ¬ p.ctx.hit i)
    (hmax : ids.length ≤ c.maxIos) {buff : ℕ} (hgot : GotBuffer p.ctx buff c') :
    ∃ old hits, c'.lruList = old ++ hits ∧ hits.length ≤ p.ctx.completionEvents.length ∧
      ∀ x < ids.length, p.ctx.hit x → p.ctx.nodeOf r x ∈ hits := by
  have hroom := h.room hi hhit hmax
  obtain ⟨old, hits, hlru, hlen, hhits⟩ := h.newest
  obtain hsame | ⟨hfree, node, hnode⟩ := hgot.lru
  · exact ⟨old, hits, hsame.trans hlru, hlen, hhits⟩
  · rw [Context.idleBuffers, hfree, hlru]
      at hroom
    obtain _ | ⟨node', old⟩ := old
    · exact absurd hroom (by simpa using hlen)
    · rw [hnode] at hlru
      exact ⟨old, hits, (List.cons.inj hlru).2, hlen, hhits⟩

/-- With a page cache, an id that no root reads is on another page than the roots. -/
theorem fromSector_ne (h : MissInv r ids c i p chain) (hi : i < ids.length)
    (hok : ∀ id, ids[i]? = some id → (p.ctx.ioData i).Ok r i id)
    (hnew : ∀ j, p.sectorsMap (p.ctx.ioData i).fromSector = some j →
      ¬ (p.ctx.ioData i).toSector ≤ (p.ctx.ioData j).toSector)
    (hc : p.ctx.caching = true) (hx : x ∈ p.iocbs.map Iocb.data) :
    (p.ctx.ioData x).fromSector ≠ (p.ctx.ioData i).fromSector := by
  intro hxi
  obtain ⟨j, hj⟩ := Option.ne_none_iff_exists'.1 (hxi ▸ h.found x hx)
  obtain ⟨hjroot, hjfrom⟩ := h.mapped _ j hj
  have hji := h.batch.root_lt hjroot
  have hidj : ids[j]? = some ids[j] := getElem?_eq_getElem (hji.trans hi)
  have hidi : ids[i]? = some ids[i] := getElem?_eq_getElem hi
  have hokj := h.batch.params j _ hidj (.inl hc)
  have hoki := hok _ hidi
  have hto := (r.readParams_of_page ids[j] ids[i] (h.batch.cache.rearranged hc) (by
    rw [← hokj.fromSector, ← hoki.fromSector, hjfrom])).2
  exact hnew j hj (by rw [hoki.toSector, hokj.toSector, hto])

theorem root (h : MissInv r ids c i p chain) (hi : i < ids.length) (hhit : ¬ p.ctx.hit i)
    (hmax : ids.length ≤ c.maxIos) (hok : ∀ id, ids[i]? = some id → (p.ctx.ioData i).Ok r i id)
    (hcount : p.readSectorCount = (p.ctx.ioData i).toSector - (p.ctx.ioData i).fromSector + 1)
    (hnew : ∀ j, p.sectorsMap (p.ctx.ioData i).fromSector = some j →
      ¬ (p.ctx.ioData i).toSector ≤ (p.ctx.ioData j).toSector) :
    ∃ p' chain', newRoot i p = .ok p' ∧ MissInv r ids c (i + 1) p' chain' := by
  have hne : p.ctx.idleBuffers ≠ [] := by
    have hroom := h.room hi hhit hmax
    intro hnil
    rw [hnil] at hroom
    exact not_lt_zero _ hroom
  obtain ⟨buff, c1, hget⟩ := getFreeDataBuffer_isSome h.batch.cache hne
  obtain ⟨hcache, hgot, free, cached, lru, rfl⟩ := h.batch.cache.getFreeDataBuffer hget
  set cb : Iocb := ⟨buff, p.readSectorCount * sectorSize, (p.ctx.ioData i).fromSector * sectorSize, i⟩
    with hcb
  set c2 : Context B := Context.setIo { p.ctx with
    freeDataBuffers := free
    cachedDataBuffers := cached
    lruList := lru
    pendingIoCount := p.ctx.pendingIoCount + 1 } i
      { p.ctx.ioData i with hooked := none, rootIo := true, buff := buff }
  have hself : c2.ioData i = { p.ctx.ioData i with hooked := none, rootIo := true, buff := buff } :=
    update_self ..
  have hother : ∀ x, x ≠ i → c2.ioData x = p.ctx.ioData x := fun x hx => update_of_ne hx ..
  have hkept : SameIo p.ctx c2 i := sameIo_of_self rfl hself hother
  have hnewest := h.newest_of_got hi hhit hmax hgot
  have hroots : ((p.iocbs ++ [cb]).map Iocb.data) = p.iocbs.map Iocb.data ++ [i] := by
    rw [map_append, map_singleton]
  have hroot_ne : ∀ x ∈ p.iocbs.map Iocb.data, x ≠ i := fun x hx => Nat.ne_of_lt (h.batch.root_lt hx)
  have hroot : ∀ x ∈ p.iocbs.map Iocb.data ++ [i], x ∈ p.iocbs.map Iocb.data ∨ x = i := by
    intro x hx
    exact (mem_append.1 hx).imp_right mem_singleton.1
  set chain' := Function.update chain i [i] with hchain'
  have hchain : ∀ x ∈ p.iocbs.map Iocb.data, chain' x = chain x :=
    fun x hx => update_of_ne (hroot_ne x hx) ..
  have hchaini : chain' i = [i] := update_self ..
  set p2 : Pass B := { p with
    ctx := c2
    sectorsMap :=
      if p.sectorsMap (p.ctx.ioData i).fromSector = none then
        Function.update p.sectorsMap (p.ctx.ioData i).fromSector (some i)
      else p.sectorsMap
    iocbs := p.iocbs ++ [cb] } with hp2
  have hhandled : (p2.handled chain').Perm (i :: p.handled chain) := by
    have heq : p2.handled chain' = p.handled chain ++ [i] := by
      show p.ctx.completionEvents ++ ((p.iocbs ++ [cb]).map Iocb.data).flatMap chain' = _
      rw [hroots, flatMap_append, flatMap_singleton, hchaini, ← append_assoc,
        flatMap_congr hchain]
      rfl
    rw [heq]
    exact perm_append_singleton i _
  have hbatch : BatchOk r ids (i + 1) c2 (p.iocbs ++ [cb]) chain' := by
    refine ⟨⟨hcache.cached, hcache.pages, hcache.off, hcache.rearranged⟩, ?_, fun x id hid hx => ?_, ?_,
      fun x hx => ?_, fun cb' hcb' x hx => ?_, fun cb' hcb' => ?_, fun x hx hh => ?_,
      fun hc x hx hh => ?_, fun hc x hx y hy hxy => ?_⟩
    · rw [map_append, map_singleton, ← append_assoc]
      refine (perm_append_singleton buff _).trans ?_
      refine Perm.trans ?_ h.batch.owners
      exact (hgot.perm.append_right _).symm
    · exact hkept.ok (h.params_succ hok hid hx)
    · rw [hroots, h.batch.roots, filter_range_succ]
      · rw [hself]
        rfl
      · intro x hx
        rw [hother x (Nat.ne_of_lt hx)]
    · rw [hroots] at hx
      obtain hx | rfl := hroot x hx
      · rw [hchain x hx]
        refine (h.batch.linked x hx).congr fun y hy => ?_
        rw [Context.next, hother y (ne_of_mem_of_not_mem hy (h.not_mem_chain hhit hx))]
        rfl
      · rw [hchaini]
        exact .last (by rw [Context.next, hself])
    · obtain hcb' | hcb' := mem_append.1 hcb'
      · have hdata : cb'.data ∈ p.iocbs.map Iocb.data := mem_map_of_mem hcb'
        rw [hchain _ hdata] at hx
        rw [hother x (ne_of_mem_of_not_mem hx (h.not_mem_chain hhit hdata)),
          hother _ (hroot_ne _ hdata)]
        exact h.batch.shared cb' hcb' x hx
      · obtain rfl := mem_singleton.1 hcb'
        rw [hchaini, mem_singleton] at hx
        rw [hx, hself]
        exact ⟨rfl, le_rfl, rfl⟩
    · obtain hcb' | hcb' := mem_append.1 hcb'
      · rw [hkept.fromSector, hkept.toSector]
        exact h.batch.iocb cb' hcb'
      · obtain rfl := mem_singleton.1 hcb'
        rw [hself]
        exact ⟨rfl, by rw [hcb, hcount]⟩
    · have hh := (hkept.hit x).1 hh
      obtain ⟨old, hits, hlru, -, hhits⟩ := hnewest
      have hlru : lru = old ++ hits := hlru
      rw [hkept.nodeOf hhit hh, hother x fun he => hhit (he ▸ hh)]
      refine ⟨?_, (h.batch.hits x hx hh).2⟩
      show p.ctx.nodeOf r x ∈ lru
      rw [hlru]
      exact mem_append_right _ (hhits x hx hh)
    · rw [hkept.pageId x]
      exact hgot.cached _ (h.batch.fresh hc x hx (hh ∘ (hkept.hit x).2))
    · rw [hkept.fromSector, hkept.fromSector] at hxy
      rw [hroots] at hx hy
      obtain hx' | hx' := hroot x hx
      · obtain hy' | hy' := hroot y hy
        · exact h.batch.distinct hc x hx' y hy' hxy
        · exact absurd (hy' ▸ hxy) (h.fromSector_ne hi hok hnew hc hx')
      · obtain hy' | hy' := hroot y hy
        · exact absurd (hx' ▸ hxy.symm) (h.fromSector_ne hi hok hnew hc hy')
        · exact hx'.trans hy'.symm
  obtain ⟨hnodup, hmem⟩ := h.handled_succ hi hhit hhandled
  refine ⟨p2, chain', by rw [newRoot, hget],
    ⟨h.same.maxIos, h.same.pageCacheSizeBytes, h.same.mem, fun node hnode => ?_⟩, hbatch, hnodup,
    fun x => (hmem x).trans (by rw [hkept.hit x]), fun x hx => (hkept.hit x).2 (h.events x hx), ?_,
    hkept.newest hhit hnewest, fun f k hk => ?_, fun x hx => ?_, h.sectors⟩
  · refine h.same.nodes node ?_
    obtain hsame | ⟨-, first, hfirst⟩ := hgot.lru
    · exact hsame ▸ hnode
    · exact hfirst ▸ mem_cons_of_mem _ hnode
  · show p.ctx.pendingIoCount + 1 = (p.iocbs ++ [cb]).length
    rw [length_append, h.pending]
    rfl
  · rw [hroots, hkept.fromSector]
    obtain hk | ⟨rfl, rfl⟩ := eq_some_of_insert hk
    · obtain ⟨h1, h2⟩ := h.mapped f k hk
      exact ⟨mem_append_left _ h1, h2⟩
    · exact ⟨mem_append_right _ (mem_singleton_self k), rfl⟩
  · rw [hroots] at hx
    rw [hkept.fromSector]
    obtain hx | rfl := hroot x hx
    · exact insert_ne_none (.inl (h.found x hx))
    · exact insert_ne_none (.inr rfl)

theorem setParams (h : MissInv r ids c i p chain) (hc : p.ctx.caching = false) (id : ℕ) :
    MissInv r ids c i { p with
      ctx := p.ctx.setIo i ((p.ctx.ioData i).setParams r i id)
      readSectorCount := r.readSectors id } chain := by
  have hnot : ∀ x, ¬ p.ctx.hit x := fun x hx => absurd (hx.1.symm.trans hc) (by decide)
  set c2 := p.ctx.setIo i ((p.ctx.ioData i).setParams r i id) with hc2
  have hnot2 : ∀ x, ¬ c2.hit x := fun x hx => absurd (hx.1.symm.trans hc) (by decide)
  have hnotc : c2.caching = true → False := fun hx => absurd (hx.symm.trans hc) (by decide)
  have hother : ∀ x, x ≠ i → c2.ioData x = p.ctx.ioData x := fun x hx => update_of_ne hx ..
  have hroot : ∀ x ∈ p.iocbs.map Iocb.data, c2.ioData x = p.ctx.ioData x :=
    fun x hx => hother x (Nat.ne_of_lt (h.batch.root_lt hx))
  have hchain : ∀ x ∈ p.iocbs.map Iocb.data, ∀ y ∈ chain x, c2.ioData y = p.ctx.ioData y :=
    fun x hx y hy => hother y (ne_of_mem_of_not_mem hy (h.not_mem_chain (hnot i) hx))
  refine ⟨⟨h.same.maxIos, h.same.pageCacheSizeBytes, h.same.mem, h.same.nodes⟩,
    ⟨⟨h.batch.cache.cached, h.batch.cache.pages, h.batch.cache.off, h.batch.cache.rearranged⟩,
      h.batch.owners, fun x id hid hx => ?_, ?_, fun x hx => ?_, fun cb hcb x hx => ?_, fun cb hcb => ?_,
      fun x _ hh => absurd hh (hnot2 x), fun hc' => (hnotc hc').elim, fun hc' => (hnotc hc').elim⟩,
    h.nodup, fun x => ?_, fun x hx => absurd (h.events x hx) (hnot x), h.pending, ?_, fun f k hk => ?_,
    fun x hx => ?_, fun hc' => (hnotc hc').elim⟩
  · have hxi : x < i := hx.resolve_left hnotc
    rw [hother x (Nat.ne_of_lt hxi)]
    exact h.batch.params x id hid (.inr hxi)
  · rw [h.batch.roots]
    exact filter_congr fun x hx => by rw [hother x (Nat.ne_of_lt (List.mem_range.1 hx))]
  · refine (h.batch.linked x hx).congr fun y hy => ?_
    rw [Context.next, hchain x hx y hy]
    rfl
  · have hdata : cb.data ∈ p.iocbs.map Iocb.data := mem_map_of_mem hcb
    rw [hchain _ hdata x hx, hroot _ hdata]
    exact h.batch.shared cb hcb x hx
  · rw [hroot _ (mem_map_of_mem hcb)]
    exact h.batch.iocb cb hcb
  · refine (h.handled x).trans (and_congr_right fun _ => or_congr_right ?_)
    exact iff_of_false (hnot x) (hnot2 x)
  · obtain ⟨old, hits, hlru, hlen, -⟩ := h.newest
    exact ⟨old, hits, hlru, hlen, fun x _ hh => absurd hh (hnot2 x)⟩
  · obtain ⟨h1, h2⟩ := h.mapped f k hk
    rw [hroot k h1]
    exact ⟨h1, h2⟩
  · rw [hroot x hx]
    exact h.found x hx

theorem readStep (h : MissInv r ids c i p chain) (hi : i < ids.length) (hhit : ¬ p.ctx.hit i)
    (hmax : ids.length ≤ c.maxIos) (hok : ∀ id, ids[i]? = some id → (p.ctx.ioData i).Ok r i id)
    (hcount : p.readSectorCount = (p.ctx.ioData i).toSector - (p.ctx.ioData i).fromSector + 1) :
    ∃ p' chain', PqReader.readStep i p = .ok p' ∧ MissInv r ids c (i + 1) p' chain' := by
  unfold PqReader.readStep
  dsimp only
  split
  · rename_i j hj
    split_ifs with hle
    · obtain ⟨chain', h'⟩ := h.hook hi hhit hok hj hle
      exact ⟨_, chain', rfl, h'⟩
    · refine h.root hi hhit hmax hok hcount fun k hk => ?_
      rw [hj] at hk
      cases hk
      exact hle
  · rename_i hnone
    refine h.root hi hhit hmax hok hcount fun k hk => ?_
    rw [hnone] at hk
    cases hk

/-- Each id is handled if its read fits into a buffer; otherwise an assertion fails. -/
theorem missStep (h : MissInv r ids c i p chain) (hi : i < ids.length) (hmax : ids.length ≤ c.maxIos)
    {id : ℕ} (hid : ids[i]? = some id) :
    (r.Fits id → ∃ p' chain', PqReader.missStep r i id p = .ok p' ∧ MissInv r ids c (i + 1) p' chain') ∧
    (¬ r.Fits id → PqReader.missStep r i id p = .error .assertion) := by
  unfold PqReader.missStep
  by_cases hc : p.ctx.caching = true
  · have hr := h.batch.cache.rearranged hc
    refine ⟨fun _ => ?_, fun hfit => absurd (.inl hr) hfit⟩
    rw [if_pos hc]
    by_cases hpage : (p.ctx.ioData i).inPageCache = true
    · rw [if_pos hpage]
      exact ⟨p, chain, rfl, h.skip hi ⟨hc, hpage⟩⟩
    · rw [if_neg hpage]
      have hok := h.batch.params i id hid (.inl hc)
      refine h.readStep hi (fun hh => hpage hh.2) hmax (fun id' hid' => ?_) ?_
      · exact h.batch.params i id' hid' (.inl hc)
      · rw [h.sectors hc (zero_lt_of_lt hi), ← r.readSectors_rearranged id hr, hok.fromSector,
          hok.toSector, Reader.readSectors]
  · rw [if_neg hc]
    have hc : p.ctx.caching = false := by simpa using hc
    refine ⟨fun hfit => ?_, fun hfit => ?_⟩
    · rw [setParams_of_fits hfit]
      refine (h.setParams hc id).readStep hi (fun hh => absurd (hh.1.symm.trans hc) (by decide)) hmax
        (fun id' hid' => ?_) ?_
      · obtain rfl := Option.some.inj (hid.symm.trans hid')
        rw [setIo_ioData_self]
        exact IoData.setParams_ok _
      · rw [setIo_ioData_self]
        rfl
    · rw [setParams_of_not_fits hfit]
      rfl

end MissInv

theorem missPass_spec (h : MissInv r ids c i p chain) (hmax : ids.length ≤ c.maxIos) {rest : List ℕ}
    (hrest : ids.drop i = rest) (hi : i ≤ ids.length) :
    ((∀ id ∈ rest, r.Fits id) →
      ∃ p' chain', missPass r i rest p = .ok p' ∧ MissInv r ids c ids.length p' chain') ∧
    ((∃ id ∈ rest, ¬ r.Fits id) → missPass r i rest p = .error .assertion) := by
  induction rest generalizing i p chain with
  | nil =>
    have : i = ids.length := le_antisymm hi (drop_eq_nil_iff.1 hrest)
    exact ⟨fun _ => ⟨p, chain, rfl, this ▸ h⟩, fun ⟨id, hid, _⟩ => absurd hid not_mem_nil⟩
  | cons id rest ih =>
    have hlt : i < ids.length := by
      by_contra hge
      rw [drop_eq_nil_of_le (Nat.le_of_not_lt hge)] at hrest
      cases hrest
    have hid : ids[i]? = some id := by
      have := congrArg head? hrest
      rwa [head?_drop] at this
    have hdrop : ids.drop (i + 1) = rest := by
      rw [← drop_drop, hrest]
      rfl
    obtain ⟨hok, herr⟩ := h.missStep hlt hmax hid
    by_cases hfit : r.Fits id
    · obtain ⟨p', chain', hp', h'⟩ := hok hfit
      obtain ⟨hok', herr'⟩ := ih h' hdrop hlt
      have heq : missPass r i (id :: rest) p = missPass r (i + 1) rest p' := by
        rw [missPass, hp']
        rfl
      rw [heq]
      refine ⟨fun hall => hok' fun id' hid' => hall id' (mem_cons_of_mem _ hid'), ?_⟩
      rintro ⟨id', hid', hnot⟩
      obtain rfl | hid' := mem_cons.1 hid'
      · exact absurd hfit hnot
      · exact herr' ⟨id', hid', hnot⟩
    · refine ⟨fun hall => absurd (hall id mem_cons_self) hfit, fun _ => ?_⟩
      rw [missPass, herr hfit]
      rfl

end DiskANNEval.AiSAQ.PqReader
