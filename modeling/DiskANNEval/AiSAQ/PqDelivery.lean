import DiskANNEval.AiSAQ.PqBatches

/-!
# PqDelivery — each id of a batch is handed back once

The waits that follow a submit hand back each index once, with a pointer to the bytes of its id,
for both readers and every order of the completions (`deliversOnce_iff`).  The exception is a read
that is longer than a data buffer: `init_common` sizes the buffers in sectors of 512 bytes, and the
reads of a file that is not rearranged are whole blocks of the device.
-/

namespace DiskANNEval.AiSAQ.PqReader

open Lib

variable {B : Type} {r : Reader} {file : ℕ → B} {ids : List ℕ} {c c' : Context B}

/-- A call of `read_pq_vectors_wait_completion`. -/
structure Wait where
  nrEvents : ℕ
  maxEvents : ℕ
  evts : List Iocb

/-- A wait after a submit; what has been handed back is kept. -/
def waitStep (engine : Engine) (file : ℕ → B) (s : Context B × List Handed) (w : Wait) :
    Option (Context B × List Handed) :=
  (waitCompletion engine file w.nrEvents w.maxEvents w.evts s.1).map fun (c, out) => (c, s.2 ++ out)

/-- The handed-back vectors are of different ids of the batch, and each pointer is to the bytes of
its id. -/
structure HandedOk (r : Reader) (file : ℕ → B) (ids : List ℕ) (c : Context B) (D : List Handed) :
    Prop where
  once : (D.map Handed.index).Nodup
  bytes : ∀ d ∈ D, ∃ id, ids[d.index]? = some id ∧
    ∀ k < r.pqVectorSize, c.mem d.buff (d.offset + k) = file (r.vectorPos id + k)

/-- The batch is taken; between the waits what has been handed back is as it should be; and a wait
can return, and hands back as many vectors as it is asked for while there are any. -/
def DeliversOnce (r : Reader) (engine : Engine) (file : ℕ → B) (c : Context B) (ids : List ℕ) : Prop :=
  ∃ c', submit r c ids = .ok c' ∧
    ∀ s, Reach (fun s => s = (c', [])) (ofFn (waitStep engine file)) s →
      HandedOk r file ids s.1 s.2 ∧ ∀ nrEvents maxEvents,
        (∃ evts, (waitStep engine file s ⟨nrEvents, maxEvents, evts⟩).isSome) ∧
        ∀ evts s', waitStep engine file s ⟨nrEvents, maxEvents, evts⟩ = some s' →
          min nrEvents (min maxEvents (ids.length - s.2.length)) ≤ s'.2.length - s.2.length

theorem Serving.handedOk {iocbs : List Iocb} {chain : ℕ → List ℕ} {D : List Handed}
    (h : Serving r file ids iocbs chain D c) : HandedOk r file ids c D := by
  refine ⟨(List.nodup_append.1 h.nodup).1, fun d hd => ?_⟩
  have hmem : d.index ∈ D.map Handed.index ++ c.completionEvents :=
    List.mem_append_left _ (List.mem_map_of_mem hd)
  have hlt : d.index < ids.length := h.lt (by
    rw [← List.append_assoc]
    exact List.mem_append_left _ hmem)
  have hid : ids[d.index]? = some ids[d.index] := List.getElem?_eq_getElem hlt
  refine ⟨ids[d.index], hid, fun k hk => ?_⟩
  have hbuff : d.buff = (c.ioData d.index).buff := congrArg Handed.buff (h.handed d hd)
  have hoff : d.offset = (c.ioData d.index).buffOffset := congrArg Handed.offset (h.handed d hd)
  rw [hbuff, hoff]
  exact h.bytes hmem hid hk

theorem Serving.waitStep {engine : Engine} {iocbs : List Iocb} {chain : ℕ → List ℕ}
    {s s' : Context B × List Handed} {w : Wait} (h : Serving r file ids iocbs chain s.2 s.1)
    (hp : s.1.pendingIoCount = s.1.inFlight.length) (hs : waitStep engine file s w = some s') :
    Serving r file ids iocbs chain s'.2 s'.1 ∧ s'.1.pendingIoCount = s'.1.inFlight.length ∧
      min w.nrEvents (min w.maxEvents (ids.length - s.2.length)) ≤ s'.2.length - s.2.length := by
  obtain ⟨⟨c1, out⟩, h1, rfl⟩ := Option.map_eq_some_iff.1 hs
  obtain ⟨hcol, hp', hmin⟩ := h.waitCompletion hp h1
  refine ⟨hcol.serving, hp', ?_⟩
  rw [List.length_append, Nat.add_sub_cancel_left]
  exact hmin

/-- After any sequence of batches a batch is handed back exactly once if its reads fit. -/
theorem deliversOnce_iff {engine : Engine} (h : Reach (Init r) (ofFn (step r engine file)) c)
    (hzero : c.ioDataCount = 0) (hmax : ids.length ≤ c.maxIos) :
    DeliversOnce r engine file c ids ↔ ∀ id ∈ ids, r.Fits id := by
  obtain ⟨hready, -⟩ := (runInv_of_reach h).toReady hzero
  obtain ⟨hok, herr⟩ := hready.submit hmax
  constructor
  · rintro ⟨c', hc', -⟩
    by_contra hnot
    push Not at hnot
    rw [herr hnot] at hc'
    cases hc'
  · intro hall
    obtain ⟨c', iocbs, chain, heq, hserving, hp⟩ := hok hall
    refine ⟨c', heq, fun s hs => ?_⟩
    obtain ⟨hs, hps⟩ := Reach.invariant (P := fun s => Serving r file ids iocbs chain s.2 s.1 ∧
        s.1.pendingIoCount = s.1.inFlight.length)
      (by rintro _ rfl; exact ⟨hserving, hp⟩)
      (fun s w s' ih hw => (ih.1.waitStep ih.2 hw).imp_right And.left) hs
    refine ⟨hs.handedOk, fun nrEvents maxEvents => ⟨?_, fun evts s' hw => ?_⟩⟩
    · obtain ⟨evts, c1, out, h1⟩ := hs.waitCompletion_isSome hps engine nrEvents maxEvents
      exact ⟨evts, by simp [PqReader.waitStep, h1]⟩
    · exact (hs.waitStep hps hw).2.2

theorem exampleBlock_pos : 0 < 4096 := by decide

theorem sector_dvd_exampleBlock : sectorSize ∣ 4096 := by decide

/-- Vectors of 32 bytes, on a device whose block size is not known. -/
def exampleReader (rearranged : Bool) : Reader where
  rearranged := rearranged
  rearrangedPqPageSize := 4096
  blockSize := 4096
  pqVectorSize := 32
  vector_pos := by decide
  block_pos := exampleBlock_pos
  sector_dvd_block := sector_dvd_exampleBlock
  page _ := ⟨by decide, by decide⟩

def exampleContext (rearranged : Bool) : Context Unit :=
  createContext (exampleReader rearranged) 2 4096 (fun _ => ⟨false, false, none, 0, 0, 0, 0, 0, 0⟩)
    fun _ _ => ()

theorem init_exampleContext (rearranged : Bool) :
    Init (exampleReader rearranged) (exampleContext rearranged) := ⟨2, 4096, _, _, rfl⟩

/-- Two ids of one page of a rearranged file. -/
theorem deliversOnce_page : DeliversOnce (exampleReader true) .uring (fun _ => ())
    (exampleContext true) [5, 6] :=
  (deliversOnce_iff (.start (init_exampleContext true)) rfl (by decide)).2 fun _ _ => .inl rfl

/-- Blocks of eight sectors do not fit into the two sectors of a data buffer: the first batch of a
file that is not rearranged is not taken. -/
theorem not_deliversOnce_blocks : ∃ c : Context Unit,
    Reach (Init (exampleReader false)) (ofFn (step (exampleReader false) .aio fun _ => ())) c ∧
      c.ioDataCount = 0 ∧ [100].length ≤ c.maxIos ∧
      ¬ DeliversOnce (exampleReader false) .aio (fun _ => ()) c [100] := by
  refine ⟨exampleContext false, .start (init_exampleContext false), rfl, by decide, ?_⟩
  rintro ⟨c', hc', -⟩
  have herr : submit (exampleReader false) (exampleContext false) [100] = .error .assertion := rfl
  rw [herr] at hc'
  cases hc'

/-- The second batch hits the page of the first one and misses another. -/
theorem buffersOk_after_hit : ∃ c : Context Unit,
    Reach (Init (exampleReader true)) (ofFn (step (exampleReader true) .aio fun _ => ())) c ∧
      c.lruList = [⟨1, 2⟩] ∧ c.rootBuffers = [1] ∧ BuffersOk (exampleReader true) c := by
  have hruns : (runs (step (exampleReader true) .aio fun _ => ()) (exampleContext true)
      [.submit [5, 6], .wait 2 2 [⟨2, 4096, 4096, 0⟩], .done, .submit [7, 300]]).isSome := rfl
  have hreach := reach_of_runs (.start (init_exampleContext true)) (Option.some_get hruns).symm
  exact ⟨_, hreach, rfl, rfl, buffersOk_of_reach hreach⟩

end DiskANNEval.AiSAQ.PqReader
