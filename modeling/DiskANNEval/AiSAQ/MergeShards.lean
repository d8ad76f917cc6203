import DiskANNEval.Lib.Records
import Mathlib

/-!
# MergeShards — the graphs of the shards merged into one

The data set is cut into overlapping shards, and a graph is built for each.  `merge_shards` goes over
the nodes in the order of their ids; the neighbours that a node has in its shards are read from the
shards' files, renamed, and written as one list.

The words after the header of a file are its records; `BytesRead` of the reader counts bytes.  The
files are read and written in order, so the readers are the words that are left.
-/

namespace DiskANNEval.AiSAQ.MergeShards

open Lib

/-- A graph as `save_graph` writes it: the header, and the records in 32-bit words. -/
structure VamanaFile where
  expectedFileSize : ℕ
  width : ℕ
  medoid : ℕ
  frozen : ℕ
  words : List ℕ

def vamanaMetadataSize : ℕ := 8 + 4 + 4 + 8

/-- The length of the file in bytes. -/
def VamanaFile.fileSize (f : VamanaFile) : ℕ := vamanaMetadataSize + 4 * f.words.length

/-- `load_impl`: the records until the expected number of bytes has been read. -/
def VamanaFile.load (f : VamanaFile) : Option (List (List ℕ)) :=
  if (f.expectedFileSize - vamanaMetadataSize) % 4 = 0 ∧ vamanaMetadataSize ≤ f.expectedFileSize then
    decode ((f.expectedFileSize - vamanaMetadataSize) / 4) 0 f.words
  else none

/-- A shard: the ids of its points, and its graph. -/
structure Shard where
  idmap : List ℕ
  file : VamanaFile

/-- `std::shuffle`: the `k`-th call permutes its range. -/
structure Shuffle where
  run : ℕ → List ℕ → List ℕ
  perm : ∀ k l, (run k l).Perm l

/-- The order of the pairs of a node and a shard. -/
def le (a b : ℕ × ℕ) : Prop := a.1 < b.1 ∨ a.1 = b.1 ∧ a.2 ≤ b.2

instance : DecidableRel le := fun _ _ => inferInstanceAs (Decidable (_ ∨ _))

/-- `node_shard`, sorted. -/
def nodeShard (shards : List Shard) : List (ℕ × ℕ) :=
  ((shards.zipIdx.flatMap fun (s, shard) => s.idmap.map fun id => (id, shard))).insertionSort le

/-- The variables of the merge; `readers` has what is left of each file. -/
structure State where
  readers : ℕ → List ℕ
  nhoodSet : ℕ → Bool
  finalNhood : List ℕ
  curId : ℕ
  mergedIndexSize : ℕ
  words : List ℕ
  shuffles : ℕ

/-- The list of the node is shuffled and written. -/
def State.flush (σ : Shuffle) (maxDegree : ℕ) (m : State) : State :=
  let finalNhood := σ.run m.shuffles m.finalNhood
  let nnbrs := min finalNhood.length maxDegree
  { m with
    words := m.words ++ nnbrs :: finalNhood.take nnbrs
    mergedIndexSize := m.mergedIndexSize + (4 + nnbrs * 4)
    nhoodSet := finalNhood.foldl (fun set p => Function.update set p false) m.nhoodSet
    finalNhood := []
    shuffles := m.shuffles + 1 }

/-- A neighbour under its id. -/
def State.rename (idmap : List ℕ) (m : State) (nbr : ℕ) : Option State :=
  idmap[nbr]?.map fun id =>
    if m.nhoodSet id = false then
      { m with
        nhoodSet := Function.update m.nhoodSet id true
        finalNhood := m.finalNhood ++ [id] }
    else m

/-- One pair of `node_shard`. -/
def State.step (σ : Shuffle) (shards : List Shard) (maxDegree : ℕ) (m : State) (p : ℕ × ℕ) :
    Option State :=
  let m := if m.curId < p.1 then { m.flush σ maxDegree with curId := p.1 } else m
  shards[p.2]?.bind fun s => (readRecord (m.readers p.2)).bind fun (shardNhood, rest) =>
    shardNhood.foldlM (State.rename s.idmap) { m with readers := Function.update m.readers p.2 rest }

/-- The merged file, and the medoids of the shards.  `none`: a read past the end of a file or of an
id map; without a shard the header has no medoid. -/
def mergeShards (σ : Shuffle) (shards : List Shard) (maxDegree : ℕ) :
    Option (VamanaFile × List ℕ) :=
  (shards.mapM fun s => s.idmap[s.file.medoid]?).bind fun medoids => medoids.getLast?.bind fun medoid =>
    ((nodeShard shards).foldlM (State.step σ shards maxDegree)
      { readers := fun shard => (shards[shard]?.map fun s => s.file.words).getD []
        nhoodSet := fun _ => false
        finalNhood := []
        curId := 0
        mergedIndexSize := vamanaMetadataSize
        words := []
        shuffles := 0 }).map fun m =>
      let m := m.flush σ maxDegree
      ({ expectedFileSize := m.mergedIndexSize
         width := maxDegree
         medoid
         frozen := 0
         words := m.words }, medoids)

end DiskANNEval.AiSAQ.MergeShards
