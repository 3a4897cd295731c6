import Mathlib
import ContainerProbe.Compound.File
import ContainerProbe.Proofs.SectorChain
import ContainerProbe.Proofs.DirectoryWalk
import ContainerProbe.Proofs.Source

/-!
# What a stream of a compound document reads as

A stream record declares a size and a first sector. A stream shorter than the header's cutoff
lives in the mini stream (the root's sectors, cut to the root's size), in mini sectors chained
through the mini FAT; any other stream lives in sectors chained through the FAT. Either way its
bytes are the first `size` bytes of its sectors, taken in chain order.

Reading a stream delivers exactly these bytes or fails. It succeeds when the chains end inside
their tables, every sector it reads lies inside the file and every mini sector it reads inside
the mini stream, and the sectors hold the declared size: a chain that ends early is refused,
by design, as a stream shorter than its declared size.

## Main statements

* `chainBytes_ok_iff`: the bytes of a chain are its sectors' bytes, in order.
* `chainFeed_bytes`, `chainFeed_complete`: a regular stream's reader.
* `readMini_bytes`, `readMini_complete`: a stream in the mini stream.
* `stream_reads_declared_bytes`: every entry of an opened document reads as its record
  declares, and reads whole when its sectors are there.
-/

namespace ContainerProbe.Compound

/-! ## §1 Sectors as bytes -/

/-- The bytes of sector `k` of an image with sectors of `size` bytes: the `size` bytes at
offset `(k + 1) * size`, the header standing where sector `-1` would. -/
def sectorData (image : ByteArray) (size k : Nat) : List UInt8 :=
  (image.data.toList.drop ((k + 1) * size)).take size

/-- Sector `k` lies inside the image. -/
def SectorInside (image : ByteArray) (size k : Nat) : Prop :=
  (k + 1) * size + size ≤ image.size

/-- The bytes of a list of sectors, in order. -/
def sectorsData (image : ByteArray) (size : Nat) (sectors : List Nat) : List UInt8 :=
  sectors.flatMap (sectorData image size)

/-- Mini sector `k` of a mini stream with mini sectors of `size` bytes: the `size` bytes at
offset `k * size`. -/
def miniSectorData (ms : List UInt8) (size k : Nat) : List UInt8 :=
  (ms.drop (k * size)).take size

/-- The bytes of a list of mini sectors, in order. -/
def miniSectorsData (ms : List UInt8) (size : Nat) (sectors : List Nat) : List UInt8 :=
  sectors.flatMap (miniSectorData ms size)

theorem length_sectorData {image : ByteArray} {size k : Nat} (h : SectorInside image size k) :
    (sectorData image size k).length = size := by
  unfold SectorInside at h
  simp [sectorData]
  omega

@[simp] theorem sectorsData_nil (image : ByteArray) (size : Nat) : sectorsData image size [] = [] :=
  rfl

@[simp] theorem sectorsData_cons (image : ByteArray) (size s : Nat) (rest : List Nat) :
    sectorsData image size (s :: rest) = sectorData image size s ++ sectorsData image size rest :=
  rfl

/-- A sector inside the image is read as its bytes. -/
theorem sectorBytes_of_inside {image : ByteArray} {size k : Nat} (h : SectorInside image size k) :
    ∃ d, sectorBytes image size k = .ok d ∧ d.data.toList = sectorData image size k := by
  refine ⟨_, if_pos h, ?_⟩
  rw [ByteArray.toList_extract, sectorData, Nat.add_sub_cancel_left]

theorem sectorBytes_of_outside {image : ByteArray} {size k : Nat}
    (h : ¬ SectorInside image size k) : sectorBytes image size k = .error shortRead :=
  if_neg h

/-! ## §2 Whole chains -/

/-- Reading a list of sectors one after another appends their bytes, and succeeds exactly
when every sector lies inside the image. -/
theorem foldlM_sectorBytes_ok_iff (image : ByteArray) (size : Nat) (sectors : List Nat)
    (acc d : ByteArray) :
    sectors.foldlM (fun acc s => (sectorBytes image size s).map (acc ++ ·)) acc = .ok d ↔
      (∀ k ∈ sectors, SectorInside image size k) ∧
        d.data.toList = acc.data.toList ++ sectorsData image size sectors := by
  induction sectors generalizing acc with
  | nil =>
    simp only [List.foldlM_nil, List.not_mem_nil, false_imp_iff, imp_true_iff, true_and,
      sectorsData, List.flatMap_nil, List.append_nil]
    rw [Array.toList_inj, ← ByteArray.ext_iff]
    exact ⟨fun h => (Except.ok.inj h).symm, fun h => h ▸ rfl⟩
  | cons s rest ih =>
    rw [List.foldlM_cons]
    by_cases hs : SectorInside image size s
    · obtain ⟨data, hd, hdl⟩ := sectorBytes_of_inside hs
      rw [hd]
      change List.foldlM _ (acc ++ data) rest = Except.ok d ↔ _
      rw [ih]
      simp only [List.forall_mem_cons, hs, true_and, sectorsData, List.flatMap_cons,
        ByteArray.data_append, Array.toList_append, hdl, List.append_assoc]
    · rw [sectorBytes_of_outside hs]
      change Except.error shortRead = Except.ok d ↔ _
      simp only [reduceCtorEq, false_iff, not_and]
      intro hall
      exact absurd (hall s List.mem_cons_self) hs

/-- The bytes of a chain are the bytes of its sectors, in order; reading them fails unless
the chain ends inside its table and every sector lies inside the image. -/
theorem chainBytes_ok_iff {image : ByteArray} {size : Nat} {table : Array Nat} {start : Nat}
    {d : ByteArray} :
    chainBytes image size table start = .ok d ↔
      ∃ sectors, Follows table start sectors ∧ (∀ k ∈ sectors, SectorInside image size k) ∧
        d.data.toList = sectorsData image size sectors := by
  unfold chainBytes
  cases hc : chain table start with
  | error e =>
    simp only [bind, Except.bind, reduceCtorEq, false_iff, not_exists, not_and]
    intro sectors hf
    rw [← chain_ok_iff] at hf
    rw [hc] at hf
    cases hf
  | ok sectors =>
    simp only [bind, Except.bind]
    rw [foldlM_sectorBytes_ok_iff]
    have hf := chain_ok_iff.1 hc
    constructor
    · rintro ⟨hin, hd⟩
      exact ⟨sectors, hf, hin, by simpa using hd⟩
    · rintro ⟨sectors', hf', hin, hd⟩
      obtain rfl := hf.unique hf'
      exact ⟨hin, by simpa using hd⟩

/-! ## §3 Regular streams -/

open Document

theorem chainFeed_zero (image : ByteArray) (size : Nat) (sectors : List Nat) (acc : ByteArray) :
    chainFeed image size sectors 0 acc = ⟨acc, none⟩ := by
  cases sectors <;> rfl

/-- Reading a sector inside the image delivers as much of it as the stream still needs. -/
theorem chainFeed_inside {image : ByteArray} {size s : Nat} (hs : SectorInside image size s)
    (rest : List Nat) (remaining : Nat) (acc : ByteArray) :
    ∃ data : ByteArray, data.data.toList = sectorData image size s ∧ data.size = size ∧
      chainFeed image size (s :: rest) (remaining + 1) acc =
        chainFeed image size rest (remaining + 1 - min size (remaining + 1))
          (acc ++ data.extract 0 (min size (remaining + 1))) := by
  obtain ⟨data, hd, hdl⟩ := sectorBytes_of_inside hs
  have hsize : data.size = size := by
    rw [← ByteArray.toList_length, hdl, length_sectorData hs]
  refine ⟨data, hdl, hsize, ?_⟩
  rw [chainFeed, hd]
  simp only [hsize]

/-- A regular stream's reader that ends cleanly has delivered the first `remaining` bytes of
its sectors. -/
theorem chainFeed_bytes {image : ByteArray} {size : Nat} {sectors : List Nat} {remaining : Nat}
    {acc : ByteArray} (h : (chainFeed image size sectors remaining acc).failure = none) :
    (chainFeed image size sectors remaining acc).bytes.data.toList =
        acc.data.toList ++ (sectorsData image size sectors).take remaining ∧
      (chainFeed image size sectors remaining acc).bytes.size = acc.size + remaining := by
  induction sectors generalizing remaining acc with
  | nil =>
    cases remaining with
    | zero => simp [chainFeed_zero]
    | succ r => simp [chainFeed] at h
  | cons s rest ih =>
    cases remaining with
    | zero => simp [chainFeed_zero]
    | succ r =>
      by_cases hs : SectorInside image size s
      · obtain ⟨data, hdl, hsize, heq⟩ := chainFeed_inside hs rest r acc
        rw [heq] at h ⊢
        obtain ⟨ihl, ihs⟩ := ih h
        refine ⟨?_, ?_⟩
        · -- the part of this sector taken, then the rest taken from the following ones
          rw [ihl, ByteArray.data_append, Array.toList_append, ByteArray.toList_extract, hdl,
            List.drop_zero, Nat.sub_zero, List.append_assoc, sectorsData_cons, List.take_append,
            length_sectorData hs]
          congr 2
          · rw [Nat.min_comm, ← List.take_take, List.take_of_length_le (Nat.le_of_eq (length_sectorData hs))]
          · congr 1
            omega
        · rw [ihs, ByteArray.size_append, ByteArray.size_extract, hsize]
          omega
      · rw [chainFeed, sectorBytes_of_outside hs] at h
        cases h

/-- A regular stream's reader ends cleanly when every sector it reads lies inside the image
and its sectors hold the bytes it still needs. -/
theorem chainFeed_complete {image : ByteArray} {size : Nat} {sectors : List Nat}
    {remaining : Nat} {acc : ByteArray}
    (hin : ∀ j k, sectors[j]? = some k → j * size < remaining → SectorInside image size k)
    (hlen : remaining ≤ sectors.length * size) :
    (chainFeed image size sectors remaining acc).failure = none := by
  induction sectors generalizing remaining acc with
  | nil =>
    cases remaining with
    | zero => simp [chainFeed_zero]
    | succ r => simp at hlen
  | cons s rest ih =>
    cases remaining with
    | zero => simp [chainFeed_zero]
    | succ r =>
      have hs : SectorInside image size s := hin 0 s rfl (by simp)
      obtain ⟨data, -, -, heq⟩ := chainFeed_inside hs rest r acc
      rw [heq]
      apply ih
      · -- the sectors after this one are read while bytes are still missing
        intro j k hk hj
        exact hin (j + 1) k (by simpa using hk) (by rw [Nat.succ_mul]; omega)
      · simp only [List.length_cons, Nat.succ_mul] at hlen
        omega

/-! ## §4 Streams in the mini stream -/

@[simp] theorem miniSectorsData_nil (ms : List UInt8) (size : Nat) : miniSectorsData ms size [] = [] :=
  rfl

@[simp] theorem miniSectorsData_cons (ms : List UInt8) (size s : Nat) (rest : List Nat) :
    miniSectorsData ms size (s :: rest) = miniSectorData ms size s ++ miniSectorsData ms size rest :=
  rfl

/-- A mini sector inside the mini stream is read as its bytes. -/
theorem toList_miniSector (ms : ByteArray) (size s : Nat) :
    (ms.extract (s * size) (s * size + size)).data.toList = miniSectorData ms.data.toList size s := by
  rw [ByteArray.toList_extract, Nat.add_sub_cancel_left, miniSectorData]

/-- What gathering mini sectors collects is a prefix of their bytes. -/
theorem gatherMini_prefix {ms : ByteArray} {miniSize size : Nat} {sectors : List Nat}
    {acc d : ByteArray} (h : gatherMini ms miniSize size sectors acc = .ok d) :
    d.data.toList <+: acc.data.toList ++ miniSectorsData ms.data.toList miniSize sectors := by
  induction sectors generalizing acc with
  | nil =>
    cases h
    simp
  | cons s rest ih =>
    rw [gatherMini] at h
    split at h
    · dsimp only at h
      split at h
      · cases h
        simp only [ByteArray.data_append, Array.toList_append, toList_miniSector,
          miniSectorsData_cons, ← List.append_assoc]
        exact List.prefix_append _ _
      · have := ih h
        simpa only [ByteArray.data_append, Array.toList_append, toList_miniSector,
          miniSectorsData_cons, List.append_assoc] using this
    · cases h

/-- Gathering collects at least `size` bytes when every mini sector it reads lies inside the
mini stream and the chain holds enough of them. -/
theorem gatherMini_complete {ms : ByteArray} {miniSize size : Nat} {sectors : List Nat}
    {acc : ByteArray}
    (hin : ∀ j k, sectors[j]? = some k → (j = 0 ∨ acc.size + j * miniSize < size) →
      k * miniSize + miniSize ≤ ms.size)
    (hlen : size ≤ acc.size + sectors.length * miniSize) :
    ∃ d, gatherMini ms miniSize size sectors acc = .ok d ∧ size ≤ d.size := by
  induction sectors generalizing acc with
  | nil => exact ⟨acc, rfl, by simpa using hlen⟩
  | cons s rest ih =>
    have hs := hin 0 s rfl (.inl rfl)
    have hsize : (acc ++ ms.extract (s * miniSize) (s * miniSize + miniSize)).size =
        acc.size + miniSize := by
      simp only [ByteArray.size_append, ByteArray.size_extract]
      omega
    rw [gatherMini, if_pos hs]
    dsimp only
    split
    · exact ⟨_, rfl, by assumption⟩
    · rename_i hlt
      apply ih
      · -- a later mini sector is read only while bytes are still missing
        intro j k hk hj
        refine hin (j + 1) k (by simpa using hk) (.inr ?_)
        rw [Nat.succ_mul]
        rcases hj with rfl | hj <;> omega
      · simp only [List.length_cons, Nat.succ_mul] at hlen
        omega

theorem ByteArray.eq_of_toList {d d' : ByteArray} (h : d.data.toList = d'.data.toList) : d = d' :=
  ByteArray.ext (Array.toList_inj.1 h)

/-- The mini stream is the root's chain cut to the root's size. -/
theorem miniStream_ok_iff {f : Document} {root : DirectoryRecord} (h0 : f.entries[0]? = some root)
    {ms : ByteArray} :
    f.miniStream = .ok ms ↔
      ∃ rs, Follows f.fat root.start rs ∧ (∀ k ∈ rs, SectorInside f.image f.sectorSize k) ∧
        ms.data.toList = (sectorsData f.image f.sectorSize rs).take root.size := by
  simp only [Document.miniStream, h0]
  cases hc : chainBytes f.image f.sectorSize f.fat root.start with
  | error e =>
    simp only [Except.map, reduceCtorEq, false_iff, not_exists, not_and]
    intro rs hrs hin _
    have hd := chainBytes_ok_iff.2
      ⟨rs, hrs, hin, (rfl : (ByteArray.mk (sectorsData f.image f.sectorSize rs).toArray).data.toList = _)⟩
    rw [hc] at hd
    cases hd
  | ok d =>
    obtain ⟨rs, hrs, hin, hdl⟩ := chainBytes_ok_iff.1 hc
    simp only [Except.map, Except.ok.injEq]
    constructor
    · rintro rfl
      exact ⟨rs, hrs, hin, by rw [ByteArray.toList_extract, hdl]; simp⟩
    · rintro ⟨rs', hrs', -, hms⟩
      obtain rfl := hrs.unique hrs'
      apply ByteArray.eq_of_toList
      rw [hms, ByteArray.toList_extract, hdl]
      simp

/-- The first bytes of a prefix, when it has that many, are those of the whole list. -/
theorem take_eq_of_prefix {α : Type} {l₁ l₂ : List α} (h : l₁ <+: l₂) {n : Nat}
    (hn : n ≤ l₁.length) : l₁.take n = l₂.take n := by
  obtain ⟨t, rfl⟩ := h
  rw [List.take_append_of_le_length hn]

/-- A stream read from the mini stream is the first `size` bytes of its mini sectors, taken
from the root's chain cut to the root's size. -/
theorem readMini_bytes {f : Document} {root : DirectoryRecord} (h0 : f.entries[0]? = some root)
    {start size : Nat} {d : ByteArray} (h : f.readMini start size = .ok d) :
    d.size = size ∧ ∃ rs mss, Follows f.fat root.start rs ∧ Follows f.miniFat start mss ∧
      d.data.toList = (miniSectorsData ((sectorsData f.image f.sectorSize rs).take root.size)
        f.miniSectorSize mss).take size := by
  unfold Document.readMini at h
  cases hm : f.miniStream with
  | error e => simp [hm, bind, Except.bind] at h
  | ok ms =>
    cases hc : chain f.miniFat start with
    | error e => simp [hm, hc, bind, Except.bind] at h
    | ok sectors =>
      cases hg : gatherMini ms f.miniSectorSize size sectors ByteArray.empty with
      | error e => simp [hm, hc, hg, bind, Except.bind] at h
      | ok data =>
        simp only [hm, hc, hg, bind, Except.bind] at h
        split at h
        · cases h
        · -- the gathered bytes reach the size, so they begin with the stream's bytes
          rename_i hge
          cases h
          obtain ⟨rs, hrs, -, hms⟩ := (miniStream_ok_iff h0).1 hm
          have hpre := gatherMini_prefix hg
          rw [ByteArray.data_empty, Array.toList_empty, List.nil_append] at hpre
          refine ⟨?_, rs, sectors, hrs, chain_ok_iff.1 hc, ?_⟩
          · rw [ByteArray.size_extract]
            omega
          · rw [ByteArray.toList_extract, List.drop_zero, Nat.sub_zero, ← hms,
              take_eq_of_prefix hpre (by rw [ByteArray.toList_length]; omega)]

/-- A stream in the mini stream reads whole when the root's chain and its own chain end inside
their tables, the root's sectors lie inside the image, every mini sector read lies inside the
mini stream, and its mini sectors hold its size. -/
theorem readMini_complete {f : Document} {root : DirectoryRecord} (h0 : f.entries[0]? = some root)
    {start size : Nat} {rs mss : List Nat} (hrs : Follows f.fat root.start rs)
    (hin : ∀ k ∈ rs, SectorInside f.image f.sectorSize k) (hmss : Follows f.miniFat start mss)
    (hread : ∀ j k, mss[j]? = some k → (j = 0 ∨ j * f.miniSectorSize < size) →
      k * f.miniSectorSize + f.miniSectorSize ≤
        ((sectorsData f.image f.sectorSize rs).take root.size).length)
    (hlen : size ≤ mss.length * f.miniSectorSize) :
    ∃ d, f.readMini start size = .ok d := by
  let ms : ByteArray := ⟨((sectorsData f.image f.sectorSize rs).take root.size).toArray⟩
  have hm : f.miniStream = .ok ms := (miniStream_ok_iff h0).2 ⟨rs, hrs, hin, by simp [ms]⟩
  have hc : chain f.miniFat start = .ok mss := chain_ok_iff.2 hmss
  obtain ⟨data, hg, hge⟩ : ∃ d, gatherMini ms f.miniSectorSize size mss ByteArray.empty = .ok d ∧
      size ≤ d.size := by
    refine gatherMini_complete (fun j k hk hj => ?_) (by simpa using hlen)
    have hms : ms.size = ((sectorsData f.image f.sectorSize rs).take root.size).length := by
      simp [ms, ← ByteArray.size_data]
    rw [hms]
    exact hread j k hk (by simpa using hj)
  refine ⟨data.extract 0 size, ?_⟩
  simp only [Document.readMini, hm, hc, hg, bind, Except.bind]
  rw [if_neg (by omega)]
  rfl

/-! ## §5 Opened documents -/

/-- An opened document keeps the image it was read from and has a root record. -/
theorem load_ok {image : ByteArray} {f : Document} (h : Document.load image = .ok f) :
    f.image = image ∧ ∃ root, f.entries[0]? = some root := by
  unfold Document.load at h
  simp only [bind, Except.bind, throw, throwThe, MonadExceptOf.throw, pure, Except.pure] at h
  -- every check that fails throws; the two branches left (with and without a mini FAT) build
  -- the document from the image and the decoded directory, whose first record is the root
  repeat' split at h
  all_goals cases h
  all_goals exact ⟨rfl, _, by assumption⟩

/-- Each entry of an opened document's container is a stream record of its directory, opened
by its id. -/
theorem entry_of_toContainer {f : Document} {name : Option String} {i : Nat} {entry : Entry}
    (hi : (f.toContainer name).entries[i]? = some entry) :
    ∃ (sid : Nat) (e : DirectoryRecord), f.entries[sid]? = some e ∧ e.kind = .stream ∧
      entry.name = e.name ∧ entry.content = (f.streamFeed sid).mapError (OpenFailure.unreadable ·.message) := by
  have hmem := List.mem_of_getElem? hi
  simp only [Document.toContainer, List.mem_filterMap, Option.map_eq_some_iff] at hmem
  obtain ⟨sid, hsid, e, he, rfl⟩ := hmem
  obtain ⟨e', he', hk⟩ := isStream_of_mem_streamIds hsid
  rw [he] at he'
  cases he'
  exact ⟨sid, e, he, hk, rfl, rfl⟩

/-- Opening a stream record reads it from the mini stream below the cutoff, and otherwise
resolves its chain and reads its sectors as the reader goes. -/
theorem streamFeed_stream {f : Document} {sid : Nat} {e : DirectoryRecord}
    (he : f.entries[sid]? = some e) (hk : e.kind = .stream) :
    f.streamFeed sid =
      if e.size < f.miniCutoff then (f.readMini e.start e.size).map Feed.ofBytes
      else (chain f.fat e.start).map fun sectors =>
        chainFeed f.image f.sectorSize sectors e.size ByteArray.empty := by
  simp [Document.streamFeed, he, hk]

theorem mapError_eq_ok {ε ε' α : Type} {g : ε → ε'} {x : Except ε α} {a : α} :
    x.mapError g = .ok a ↔ x = .ok a := by
  cases x <;> simp [Except.mapError]

/-- What the record of a stream declares its bytes to be, read from the image the document
was opened from: below the cutoff, the first `e.size` bytes of its mini sectors, taken from the
mini stream (the root's sectors cut to the root's size); otherwise the first `e.size` bytes of
its sectors. -/
def DeclaredBytes (image : ByteArray) (f : Document) (e : DirectoryRecord) (bytes : List UInt8) :
    Prop :=
  if e.size < f.miniCutoff then
    ∃ root rootSectors miniSectors, f.entries[0]? = some root ∧
      Follows f.fat root.start rootSectors ∧ Follows f.miniFat e.start miniSectors ∧
      bytes = (miniSectorsData ((sectorsData image f.sectorSize rootSectors).take root.size)
        f.miniSectorSize miniSectors).take e.size
  else
    ∃ sectors, Follows f.fat e.start sectors ∧
      bytes = (sectorsData image f.sectorSize sectors).take e.size

/-- The layout under which a stream reads to its end: its chains (and the root's, for a
stream in the mini stream) end inside their tables; every sector read lies inside the image
(all of the root's, and a regular stream's as long as bytes are missing); every mini sector
read lies inside the mini stream (the first, and the next ones as long as bytes are missing);
and the sectors hold the declared size. -/
def ReadsWhole (image : ByteArray) (f : Document) (e : DirectoryRecord) : Prop :=
  if e.size < f.miniCutoff then
    ∃ root rootSectors miniSectors, f.entries[0]? = some root ∧
      Follows f.fat root.start rootSectors ∧
      (∀ k ∈ rootSectors, SectorInside image f.sectorSize k) ∧
      Follows f.miniFat e.start miniSectors ∧
      (∀ j k, miniSectors[j]? = some k → (j = 0 ∨ j * f.miniSectorSize < e.size) →
        k * f.miniSectorSize + f.miniSectorSize ≤
          ((sectorsData image f.sectorSize rootSectors).take root.size).length) ∧
      e.size ≤ miniSectors.length * f.miniSectorSize
  else
    ∃ sectors, Follows f.fat e.start sectors ∧
      (∀ j k, sectors[j]? = some k → j * f.sectorSize < e.size →
        SectorInside image f.sectorSize k) ∧
      e.size ≤ sectors.length * f.sectorSize

section Record

variable {f : Document} {root : DirectoryRecord} {sid : Nat} {e : DirectoryRecord}

/-- A stream record read to its end without a failure delivers exactly the bytes it
declares. -/
theorem streamFeed_declared (h0 : f.entries[0]? = some root) (he : f.entries[sid]? = some e)
    (hk : e.kind = .stream) {d : ByteArray} (hd : f.streamFeed sid = .ok ⟨d, none⟩) :
    d.size = e.size ∧ DeclaredBytes f.image f e d.data.toList := by
  rw [streamFeed_stream he hk] at hd
  unfold DeclaredBytes
  split at hd
  · rename_i hmini
    rw [if_pos hmini]
    obtain ⟨d', hd', hfeed⟩ := Except.map_eq_ok hd
    cases hfeed
    obtain ⟨hsize, rs, mss, hrs, hmss, hdl⟩ := readMini_bytes h0 hd'
    exact ⟨hsize, root, rs, mss, h0, hrs, hmss, hdl⟩
  · rename_i hmini
    rw [if_neg hmini]
    obtain ⟨sectors, hc, hfeed⟩ := Except.map_eq_ok hd
    have hnone : (chainFeed f.image f.sectorSize sectors e.size ByteArray.empty).failure = none := by
      rw [hfeed]
    obtain ⟨hdl, hsz⟩ := chainFeed_bytes hnone
    rw [hfeed] at hdl hsz
    exact ⟨by simpa using hsz, sectors, chain_ok_iff.1 hc, by simpa using hdl⟩

/-- A stream record laid out whole reads to its end without a failure. -/
theorem streamFeed_whole (h0 : f.entries[0]? = some root) (he : f.entries[sid]? = some e)
    (hk : e.kind = .stream) (hr : ReadsWhole f.image f e) :
    ∃ d, f.streamFeed sid = .ok ⟨d, none⟩ := by
  rw [streamFeed_stream he hk]
  unfold ReadsWhole at hr
  split at hr
  · rename_i hmini
    obtain ⟨root', rs, mss, h0', hrs, hin, hmss, hread, hlen⟩ := hr
    rw [h0] at h0'
    cases h0'
    obtain ⟨d, hd⟩ := readMini_complete h0 hrs hin hmss hread hlen
    exact ⟨d, by simp [hmini, hd, Except.map, Feed.ofBytes]⟩
  · rename_i hmini
    obtain ⟨sectors, hs, hin, hlen⟩ := hr
    have hnone : (chainFeed f.image f.sectorSize sectors e.size ByteArray.empty).failure = none :=
      chainFeed_complete hin hlen
    refine ⟨(chainFeed f.image f.sectorSize sectors e.size ByteArray.empty).bytes, ?_⟩
    simp only [hmini, if_false, chain_ok_iff.2 hs, Except.map]
    rw [← hnone]

end Record

/-- Every entry of a document opened from an image is a stream record `e` of its directory;
reading it to the end either fails or delivers exactly `e.size` bytes, those its record
declares; and it reads to the end whenever its chains and sectors are laid out whole. -/
theorem stream_reads_declared_bytes {image : ByteArray} {f : Document}
    (hload : Document.load image = .ok f) (name : Option String) {i : Nat} {entry : Entry}
    (hi : (f.toContainer name).entries[i]? = some entry) :
    ∃ (sid : Nat) (e : DirectoryRecord), f.entries[sid]? = some e ∧ e.kind = .stream ∧
      entry.name = e.name ∧
      (∀ d, entry.content = .ok ⟨d, none⟩ → d.size = e.size ∧ DeclaredBytes image f e d.data.toList) ∧
      (ReadsWhole image f e → ∃ d, entry.content = .ok ⟨d, none⟩) := by
  obtain ⟨himg, root, h0⟩ := load_ok hload
  subst himg
  obtain ⟨sid, e, he, hk, hname, hcontent⟩ := entry_of_toContainer hi
  refine ⟨sid, e, he, hk, hname, fun d hd => ?_, fun hr => ?_⟩
  · rw [hcontent, mapError_eq_ok] at hd
    exact streamFeed_declared h0 he hk hd
  · obtain ⟨d, hd⟩ := streamFeed_whole h0 he hk hr
    refine ⟨d, ?_⟩
    rw [hcontent]
    exact mapError_eq_ok.2 hd

/-- A document with 128-byte sectors, its header followed by the FAT (sector 0), the
directory (sectors 1 to 3: the root, then two streams) and one sector of data (sector 4). Both
streams start at sector 4, whose chain ends there: the first declares 129 bytes, one more than
the sector holds; the second declares 3. The cutoff is zero, so neither lives in the mini
stream. -/
def shortStreamImage : ByteArray :=
  let u32 (n : Nat) : List UInt8 :=
    [n.toUInt8, (n / 0x100).toUInt8, (n / 0x10000).toUInt8, (n / 0x1000000).toUInt8]
  let record (kind : UInt8) (right child start size : Nat) : List UInt8 :=
    List.replicate 66 0 ++ [kind, 1] ++ u32 noStream ++ u32 right ++ u32 child ++
      List.replicate 36 0 ++ u32 start ++ u32 size ++ u32 0
  let header : List UInt8 :=
    [0xD0, 0xCF, 0x11, 0xE0, 0xA1, 0xB1, 0x1A, 0xE1] ++ List.replicate 16 0 ++
      [0x3E, 0, 3, 0, 0xFE, 0xFF, 7, 0, 6, 0] ++ List.replicate 10 0 ++
      u32 1 ++ u32 1 ++ u32 0 ++ u32 0 ++ u32 endOfChain ++ u32 0 ++ u32 endOfChain ++ u32 0 ++
      u32 0 ++ u32 freeSector ++ List.replicate 44 0
  let fat : List UInt8 :=
    u32 0xFFFFFFFD ++ u32 2 ++ u32 3 ++ u32 endOfChain ++ u32 endOfChain ++
      (List.replicate 27 (u32 freeSector)).flatten
  ⟨(header ++ fat ++ record 5 noStream 1 endOfChain 0 ++ record 2 2 noStream 4 129 ++
    record 2 noStream noStream 4 3 ++ [0x41, 0x42, 0x43] ++ List.replicate 125 0).toArray⟩

/-- What opening `shortStreamImage` gives, computed once: the first stream's record and chain,
and what reading each stream delivers. -/
theorem shortStreamImage_opens :
    ∃ f, Document.load shortStreamImage = .ok f ∧
      (f.entries[1]?.map fun e => (e.kind, e.start, e.size)) = some (.stream, 4, 129) ∧
      f.miniCutoff = 0 ∧ f.sectorSize = 128 ∧ chain f.fat 4 = .ok [4] ∧
      streamIds f.entries = [1, 2] ∧
      (f.streamFeed 1).toOption.map Feed.failure = some (some Document.shortStream) ∧
      (f.toContainer none).entries.length = 2 := by
  have hb : (match Document.load shortStreamImage with
      | .ok f => decide ((f.entries[1]?.map fun e => (e.kind, e.start, e.size)) =
          some (.stream, 4, 129) ∧ f.miniCutoff = 0 ∧ f.sectorSize = 128 ∧
          chain f.fat 4 = .ok [4] ∧ streamIds f.entries = [1, 2] ∧
          (f.streamFeed 1).toOption.map Feed.failure = some (some Document.shortStream) ∧
          (f.toContainer none).entries.length = 2)
      | .error _ => false) = true := by
    decide +kernel
  cases h : Document.load shortStreamImage with
  | error e =>
    rw [h] at hb
    cases hb
  | ok f =>
    rw [h] at hb
    exact ⟨f, rfl, of_decide_eq_true hb⟩

/-- The entries of `shortStreamImage` satisfy the hypotheses of
`stream_reads_declared_bytes`. -/
theorem stream_reads_declared_bytes_sample :
    ∃ f entry, Document.load shortStreamImage = .ok f ∧
      (f.toContainer none).entries[1]? = some entry ∧
      ∃ (sid : Nat) (e : DirectoryRecord), f.entries[sid]? = some e ∧ e.kind = .stream ∧
        entry.name = e.name ∧
        (∀ d, entry.content = .ok ⟨d, none⟩ →
          d.size = e.size ∧ DeclaredBytes shortStreamImage f e d.data.toList) ∧
        (ReadsWhole shortStreamImage f e → ∃ d, entry.content = .ok ⟨d, none⟩) := by
  obtain ⟨f, hf, -, -, -, -, -, -, hlen⟩ := shortStreamImage_opens
  obtain ⟨entry, hentry⟩ : ∃ entry, (f.toContainer none).entries[1]? = some entry :=
    ⟨_, List.getElem?_eq_getElem (by omega)⟩
  exact ⟨f, entry, hf, hentry, stream_reads_declared_bytes hf none hentry⟩

/-- Reading can fail where every chain ends inside its table and every sector read lies
inside the file: the first stream of `shortStreamImage` is a regular stream whose chain is the
single sector 4, inside the image, yet its reader fails once that sector is delivered, the
record declaring one byte more than the sector holds. -/
theorem stream_short_chain_fails :
    ∃ f e, Document.load shortStreamImage = .ok f ∧ streamIds f.entries = [1, 2] ∧
      f.entries[1]? = some e ∧ e.kind = .stream ∧ f.miniCutoff ≤ e.size ∧
      Follows f.fat e.start [e.start] ∧ SectorInside shortStreamImage f.sectorSize e.start ∧
      ∃ d, f.streamFeed 1 = .ok ⟨d, some Document.shortStream⟩ := by
  obtain ⟨f, hf, he, hcut, hsize, hc, hids, hfeed, -⟩ := shortStreamImage_opens
  obtain ⟨e, he, hfields⟩ := Option.map_eq_some_iff.1 he
  simp only [Prod.mk.injEq] at hfields
  obtain ⟨hk, hstart, hsz⟩ := hfields
  refine ⟨f, e, hf, hids, he, hk, by omega, ?_, ?_, ?_⟩
  · rw [hstart, ← chain_ok_iff]
    exact hc
  · rw [hsize, hstart, SectorInside]
    decide +kernel
  · cases hs : f.streamFeed 1 with
    | error _ =>
      rw [hs] at hfeed
      cases hfeed
    | ok F =>
      rw [hs] at hfeed
      obtain ⟨bytes, failure⟩ := F
      cases hfeed
      exact ⟨bytes, rfl⟩

end ContainerProbe.Compound
