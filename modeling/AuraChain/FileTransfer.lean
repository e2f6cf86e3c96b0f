import AuraChain.MeshEngine

/-! When a received file is complete. The receiver counts the bytes that come,
also those that come again, and an empty file has no chunk that could complete
it; apart from that it reports a file exactly when it has all of it. -/

namespace AuraChain

namespace RealAuraMeshEngine

open SparseArray (collect)

variable {toLowerCase toLowerCase' : Text → Text} {engine sender receiver : RealAuraMeshEngine}
  {fileId : Text} {file : File} {fileMeta : FileMeta} {mediaType : MediaType}
  {messages : List (Moment × PeerData)} {report : FileTransferProgress}

section sending

variable {size : Nat}

def chunkOf (size : Nat) (fileId : Text) (file : File) (i : Nat) : PeerData :=
  .fileChunk fileId i (Pieces.piece size file.bytes i)

theorem chunkOf_injective (size : Nat) (fileId : Text) (file : File) :
    Function.Injective (chunkOf size fileId file) :=
  fun _ _ h => (PeerData.fileChunk.inj h).2.1

theorem sentData_sendChunks (hpos : 0 < size) {n k : Nat}
    (hn : Pieces.count size file.bytes - k = n) :
    sentData (sendChunks hpos fileId file mediaType engine (k * size) k).2 =
      (List.range' k n).map (chunkOf size fileId file) := by
  induction n generalizing k engine with
  | zero =>
    have hend : ¬ k * size < file.size := by
      rw [File.size, ← Pieces.lt_count_iff hpos]
      omega
    rw [sendChunks, if_neg hend]
    rfl
  | succ n ih =>
    have hmore : k * size < file.size := by
      rw [File.size, ← Pieces.lt_count_iff hpos]
      omega
    rw [sendChunks, if_pos hmore, ← Nat.succ_mul, List.range'_succ, List.map_cons, ← ih (by omega)]
    rfl

/-- The header that goes before the chunks. -/
def headerOf (toLowerCase : Text → Text) (fileId : Text) (file : File) : FileMeta where
  fileId := fileId
  fileName := file.name
  fileSize := file.size
  fileType := orText file.type "application/octet-stream".toList
  mediaType := some (detectMediaType toLowerCase file.type file.name)
  chunksTotal := Pieces.count chunkSize file.bytes

theorem sentData_sendRealFile (moment : Moment) (file : File) (h : engine.connection.isSome = true) :
    sentData (engine.sendRealFile toLowerCase moment file).2 =
      .fileMeta (headerOf toLowerCase moment.randomId file) ::
        (List.range (Pieces.count chunkSize file.bytes)).map (chunkOf chunkSize moment.randomId file) := by
  have hloop : sentData (sendChunks chunkSize_pos moment.randomId file
      (detectMediaType toLowerCase file.type file.name) engine 0 0).2 =
        (List.range (Pieces.count chunkSize file.bytes)).map (chunkOf chunkSize moment.randomId file) := by
    rw [List.range_eq_range', ← sentData_sendChunks chunkSize_pos (Nat.sub_zero _), Nat.zero_mul]
  rw [sendRealFile, if_pos h, ← hloop]
  rfl

theorem connected_of_sentData {moment : Moment} {start : PeerData} {chunks : List PeerData}
    (h : sentData (engine.sendRealFile toLowerCase moment file).2 = start :: chunks) :
    engine.connection.isSome = true := by
  by_contra hclosed
  rw [sendRealFile, if_neg hclosed] at h
  cases h

end sending

section receiving

variable {f : Nat → Bytes} {done is : List Nat}

/-- What is buffered of a file once these chunks have come. -/
def bufferAfter (fileMeta : FileMeta) (f : Nat → Bytes) (is : List Nat) : FileBuffer where
  chunks := collect f is
  fileMeta := fileMeta
  received := (is.map fun i => (f i).length).sum

theorem handle_chunk (toLowerCase : Text → Text)
    (h : engine.fileBuffers[fileId]? = some (bufferAfter fileMeta f done)) (moment : Moment) (i : Nat) :
    ((engine.handleIncomingData toLowerCase moment (.fileChunk fileId i (f i))).1.fileBuffers[fileId]? =
        some (bufferAfter fileMeta f (done ++ [i]))) ∧
      reports (engine.handleIncomingData toLowerCase moment (.fileChunk fileId i (f i))).2 =
        [receivedProgress toLowerCase fileId (bufferAfter fileMeta f (done ++ [i]))] := by
  have hnext : bufferAfter fileMeta f (done ++ [i]) =
      { bufferAfter fileMeta f done with
        chunks := SparseArray.set (bufferAfter fileMeta f done).chunks i (f i)
        received := (bufferAfter fileMeta f done).received + (f i).length } := by
    rw [bufferAfter, SparseArray.collect_concat, List.map_append, List.sum_append, List.map_singleton,
      List.sum_singleton]
    rfl
  rw [hnext, handleIncomingData, h]
  exact ⟨by rw [OrdMap.lookup_insert, if_pos rfl], rfl⟩

theorem reports_append (l r : List EngineEvent) : reports (l ++ r) = reports l ++ reports r :=
  List.filterMap_append

/-- One report for each chunk, of the chunks that have come with it. -/
theorem mem_reports_chunks (h : engine.fileBuffers[fileId]? = some (bufferAfter fileMeta f done))
    (hmessages : messages.map Prod.snd = is.map fun i => PeerData.fileChunk fileId i (f i)) :
    report ∈ reports (engine.receiveAll toLowerCase messages).2 ↔
      ∃ earlier, earlier ≠ [] ∧ earlier <+: is ∧
        report = receivedProgress toLowerCase fileId (bufferAfter fileMeta f (done ++ earlier)) := by
  induction is generalizing engine done messages with
  | nil =>
    obtain rfl := List.map_eq_nil_iff.mp hmessages
    constructor
    · intro hreport
      cases hreport
    · rintro ⟨earlier, hne, hearlier, -⟩
      exact absurd (List.prefix_nil.mp hearlier) hne
  | cons i is ih =>
    obtain ⟨⟨moment, data⟩, rest, rfl, hdata, hrest⟩ := List.map_eq_cons_iff.mp hmessages
    obtain rfl : data = .fileChunk fileId i (f i) := hdata
    obtain ⟨hbuffer, hreports⟩ := handle_chunk toLowerCase h moment i
    have hsplit : reports (engine.receiveAll toLowerCase ((moment, .fileChunk fileId i (f i)) :: rest)).2 =
        receivedProgress toLowerCase fileId (bufferAfter fileMeta f (done ++ [i])) ::
          reports ((engine.handleIncomingData toLowerCase moment (.fileChunk fileId i (f i))).1.receiveAll
            toLowerCase rest).2 := by
      rw [receiveAll, reports_append, hreports]
      rfl
    rw [hsplit, List.mem_cons, ih hbuffer hrest]
    constructor
    · rintro (hfirst | ⟨earlier, -, hearlier, hlater⟩)
      · exact ⟨[i], by simp, by simp, hfirst⟩
      · refine ⟨i :: earlier, by simp, List.cons_prefix_cons.mpr ⟨rfl, hearlier⟩, ?_⟩
        rwa [List.append_assoc] at hlater
    · rintro ⟨earlier, hne, hearlier, hreport⟩
      rcases List.prefix_cons_iff.mp hearlier with rfl | ⟨later, rfl, hlater⟩
      · exact absurd rfl hne
      · by_cases hlast : later = []
        · subst hlast
          exact .inl hreport
        · refine .inr ⟨later, hlast, hlater, ?_⟩
          rwa [List.append_assoc]

end receiving

def byteCount : PeerData → Nat
  | .fileChunk _ _ chunkBytes => chunkBytes.length
  | _ => 0

/-- The bytes of the chunks, repetitions counted. -/
def deliveredBytes (deliveries : List PeerData) : Nat := (deliveries.map byteCount).sum

/-- Some report says that the file is complete exactly if every chunk has come,
and with every such report the file is there. -/
structure CompletesFaithfully (file : File) (chunks deliveries : List PeerData)
    (reports : List FileTransferProgress) : Prop where
  completes : (∃ report ∈ reports, report.isComplete = true) ↔ ∀ chunk ∈ chunks, chunk ∈ deliveries
  assembles : ∀ report ∈ reports, report.isComplete = true →
    ∃ blob, report.downloadUrl = some blob ∧ blob.bytes = file.bytes

section transfer

variable {is : List Nat}

/-- The number of chunks of the file. -/
def chunkCount (file : File) : Nat := Pieces.count chunkSize file.bytes

def pieceOf (file : File) (i : Nat) : Bytes := Pieces.piece chunkSize file.bytes i

theorem chunkCount_pos_iff : 0 < chunkCount file ↔ file.bytes ≠ [] := by
  rw [chunkCount, Pieces.lt_count_iff chunkSize_pos, Nat.zero_mul, List.length_pos_iff]

theorem deliveredBytes_chunks (fileId : Text) (file : File) (is : List Nat) :
    deliveredBytes (is.map (chunkOf chunkSize fileId file)) =
      (is.map fun i => (pieceOf file i).length).sum := by
  rw [deliveredBytes, List.map_map]
  rfl

theorem mem_chunks_iff {i : Nat} : chunkOf chunkSize fileId file i ∈ is.map (chunkOf chunkSize fileId file) ↔
    i ∈ is :=
  List.mem_map_of_injective (chunkOf_injective chunkSize fileId file)

theorem all_delivered_iff :
    (∀ chunk ∈ (List.range (chunkCount file)).map (chunkOf chunkSize fileId file),
        chunk ∈ is.map (chunkOf chunkSize fileId file)) ↔ ∀ i < chunkCount file, i ∈ is := by
  rw [List.forall_mem_map]
  simp only [List.mem_range, mem_chunks_iff]

theorem flatten_pieceOf (file : File) :
    ((List.range (chunkCount file)).map (pieceOf file)).flatten = file.bytes :=
  Pieces.flatten_pieces chunkSize_pos file.bytes

/-- Whatever stands for a hole is shorter than a whole chunk. -/
theorem blob_bytes_iff (h : ∀ i ∈ is, i < chunkCount file) (type : Text) :
    (Blob.new (collect (pieceOf file) is) type).bytes = file.bytes ↔ ∀ i < chunkCount file, i ∈ is := by
  rw [Blob.new, ← flatten_pieceOf file]
  refine SparseArray.join_collect_eq_iff h (fun i hi => ?_) fun i hi => ?_
  · rw [pieceOf, Pieces.length_piece_of_lt chunkSize_pos hi]
    decide
  · exact Pieces.length_piece_pos chunkSize_pos (show i < chunkCount file by omega)

theorem isComplete_iff (h : ∀ i ∈ is, i < chunkCount file) :
    isComplete (bufferAfter (headerOf toLowerCase fileId file) (pieceOf file) is) = true ↔
      file.size ≤ (is.map fun i => (pieceOf file i).length).sum ∨ ∀ i < chunkCount file, i ∈ is := by
  rw [isComplete, Bool.or_eq_true, decide_eq_true_eq, decide_eq_true_eq]
  exact or_congr Iff.rfl (SparseArray.le_filled_collect_iff h)

theorem mem_reports_transfer {fileMeta : FileMeta} (hid : fileMeta.fileId = fileId)
    (hmessages : messages.map Prod.snd = .fileMeta fileMeta :: is.map (chunkOf chunkSize fileId file)) :
    report ∈ reports (receiver.receiveAll toLowerCase messages).2 ↔
      report = startedProgress toLowerCase fileMeta ∨ ∃ earlier, earlier ≠ [] ∧ earlier <+: is ∧
        report = receivedProgress toLowerCase fileId (bufferAfter fileMeta (pieceOf file) earlier) := by
  obtain ⟨⟨moment, data⟩, rest, rfl, hdata, hrest⟩ := List.map_eq_cons_iff.mp hmessages
  obtain rfl : data = .fileMeta fileMeta := hdata
  have hbuffer : (receiver.handleIncomingData toLowerCase moment (.fileMeta fileMeta)).1.fileBuffers[fileId]? =
      some (bufferAfter fileMeta (pieceOf file) []) := by
    rw [handleIncomingData, OrdMap.lookup_insert, if_pos hid]
    rfl
  rw [receiveAll, reports_append, List.mem_append, mem_reports_chunks hbuffer hrest]
  refine or_congr ?_ Iff.rfl
  exact List.mem_singleton

/-- The bytes reach the size of the file only once every chunk has come. -/
def NeverEarly (file : File) (is : List Nat) : Prop :=
  ∀ earlier, earlier <+: is → file.size ≤ (earlier.map fun i => (pieceOf file i).length).sum →
    ∀ i < chunkCount file, i ∈ earlier

theorem sum_pieces (file : File) :
    ∑ i ∈ Finset.range (chunkCount file), (pieceOf file i).length = file.size := by
  rw [File.size, ← flatten_pieceOf file, SparseArray.length_flatten_range]

section delivered

variable (h : ∀ i ∈ is, i < chunkCount file)
  (hmessages : messages.map Prod.snd = .fileMeta (headerOf toLowerCase fileId file) ::
    is.map (chunkOf chunkSize fileId file))

include h

/-- As long as no chunk comes twice, the bytes and the chunks tell the same. -/
theorem neverEarly_of_nodup (hnodup : is.Nodup) : NeverEarly file is := by
  intro earlier hearlier hbytes i hi
  by_contra hmissing
  have hsub : earlier.toFinset ⊆ Finset.range (chunkCount file) := by
    intro j hj
    exact Finset.mem_range.mpr (h j (hearlier.subset (List.mem_toFinset.mp hj)))
  have hlt : ∑ j ∈ earlier.toFinset, (pieceOf file j).length <
      ∑ j ∈ Finset.range (chunkCount file), (pieceOf file j).length := by
    refine Finset.sum_lt_sum_of_subset hsub (Finset.mem_range.mpr hi)
      (fun hmem => hmissing (List.mem_toFinset.mp hmem)) ?_ fun _ _ _ => Nat.zero_le _
    exact Pieces.length_piece_pos chunkSize_pos hi
  rw [List.sum_toFinset _ (hnodup.sublist hearlier.sublist), sum_pieces] at hlt
  omega

include hmessages

theorem faithful_of_neverEarly (hne : file.bytes ≠ []) (hnever : NeverEarly file is) :
    CompletesFaithfully file ((List.range (chunkCount file)).map (chunkOf chunkSize fileId file))
      (is.map (chunkOf chunkSize fileId file))
      (reports (receiver.receiveAll toLowerCase' messages).2) := by
  have hcomplete : ∀ earlier, earlier <+: is →
      isComplete (bufferAfter (headerOf toLowerCase fileId file) (pieceOf file) earlier) = true →
        ∀ i < chunkCount file, i ∈ earlier := by
    intro earlier hearlier hcomplete
    rcases (isComplete_iff fun i hi => h i (hearlier.subset hi)).mp hcomplete with hbytes | hall
    · exact hnever earlier hearlier hbytes
    · exact hall
  refine ⟨?_, fun report hreport hdone => ?_⟩
  · rw [all_delivered_iff]
    constructor
    · rintro ⟨report, hreport, hdone⟩
      rcases (mem_reports_transfer rfl hmessages).mp hreport with rfl | ⟨earlier, -, hearlier, rfl⟩
      · cases hdone
      · exact fun i hi => hearlier.subset (hcomplete earlier hearlier hdone i hi)
    · intro hall
      have hfirst := hall 0 (chunkCount_pos_iff.mpr hne)
      refine ⟨_, (mem_reports_transfer rfl hmessages).mpr
        (.inr ⟨is, List.ne_nil_of_mem hfirst, List.prefix_refl is, rfl⟩), ?_⟩
      exact (isComplete_iff h).mpr (.inr hall)
  · rcases (mem_reports_transfer rfl hmessages).mp hreport with rfl | ⟨earlier, -, hearlier, rfl⟩
    · cases hdone
    · refine ⟨_, if_pos hdone, ?_⟩
      exact (blob_bytes_iff (fun i hi => h i (hearlier.subset hi)) _).mpr
        (hcomplete earlier hearlier hdone)

theorem neverEarly_of_faithful (hfaithful : CompletesFaithfully file
      ((List.range (chunkCount file)).map (chunkOf chunkSize fileId file))
      (is.map (chunkOf chunkSize fileId file))
      (reports (receiver.receiveAll toLowerCase' messages).2)) :
    file.bytes ≠ [] ∧ NeverEarly file is := by
  have hne : file.bytes ≠ [] := by
    intro hempty
    have hcount : ¬ 0 < chunkCount file := fun hpos => chunkCount_pos_iff.mp hpos hempty
    have hnone : is = [] := List.eq_nil_iff_forall_not_mem.mpr fun i hi => by
      have := h i hi
      omega
    obtain ⟨report, hreport, hdone⟩ := hfaithful.completes.mpr
      (all_delivered_iff.mpr fun i hi => by omega)
    rcases (mem_reports_transfer rfl hmessages).mp hreport with rfl | ⟨earlier, hearlier, hin, -⟩
    · cases hdone
    · rw [hnone] at hin
      exact hearlier (List.prefix_nil.mp hin)
  refine ⟨hne, fun earlier hearlier hbytes => ?_⟩
  have hbound : ∀ i ∈ earlier, i < chunkCount file := fun i hi => h i (hearlier.subset hi)
  have hsome : earlier ≠ [] := by
    rintro rfl
    exact hne (List.length_eq_zero_iff.mp (Nat.le_zero.mp hbytes))
  have hdone : isComplete (bufferAfter (headerOf toLowerCase fileId file) (pieceOf file) earlier) = true :=
    (isComplete_iff hbound).mpr (.inl hbytes)
  obtain ⟨blob, hurl, hblob⟩ := hfaithful.assembles _
    ((mem_reports_transfer rfl hmessages).mpr (.inr ⟨earlier, hsome, hearlier, rfl⟩)) hdone
  obtain rfl := Option.some.inj ((if_pos hdone).symm.trans hurl)
  exact (blob_bytes_iff hbound _).mp hblob

theorem faithful_of_nodup (hne : file.bytes ≠ []) (hnodup : is.Nodup) :
    CompletesFaithfully file ((List.range (chunkCount file)).map (chunkOf chunkSize fileId file))
      (is.map (chunkOf chunkSize fileId file))
      (reports (receiver.receiveAll toLowerCase' messages).2) :=
  faithful_of_neverEarly h hmessages hne (neverEarly_of_nodup h hnodup)

end delivered

theorem neverEarly_iff (file : File) (is : List Nat) (fileId : Text) : NeverEarly file is ↔
    ∀ earlier, earlier <+: is.map (chunkOf chunkSize fileId file) →
      file.size ≤ deliveredBytes earlier →
        ∀ chunk ∈ (List.range (chunkCount file)).map (chunkOf chunkSize fileId file), chunk ∈ earlier := by
  constructor
  · intro hnever earlier hearlier hbytes
    obtain ⟨earlier, hin, rfl⟩ := List.prefix_map_iff.mp hearlier
    rw [deliveredBytes_chunks] at hbytes
    exact all_delivered_iff.mpr (hnever earlier hin hbytes)
  · intro hnever earlier hearlier hbytes
    refine all_delivered_iff.mp (hnever _ (hearlier.map _) ?_)
    rwa [deliveredBytes_chunks]

theorem exists_indices {n : Nat} {chunk : Nat → PeerData} {deliveries : List PeerData}
    (h : ∀ data ∈ deliveries, data ∈ (List.range n).map chunk) :
    ∃ is : List Nat, deliveries = is.map chunk ∧ ∀ i ∈ is, i < n := by
  induction deliveries with
  | nil => exact ⟨[], rfl, by simp⟩
  | cons data deliveries ih =>
    obtain ⟨hdata, hrest⟩ := List.forall_mem_cons.mp h
    obtain ⟨is, rfl, his⟩ := ih hrest
    obtain ⟨i, hi, rfl⟩ := List.mem_map.mp hdata
    exact ⟨i :: is, rfl, List.forall_mem_cons.mpr ⟨List.mem_range.mp hi, his⟩⟩

/-- A file is reported complete exactly when it is there if and only if it is not
empty and the bytes that come, repetitions counted, do not reach its size before
the last chunk has come. -/
theorem file_transfer_faithful_iff {moment : Moment} {start : PeerData}
    {chunks deliveries : List PeerData}
    (hsent : sentData (sender.sendRealFile toLowerCase moment file).2 = start :: chunks)
    (hmessages : messages.map Prod.snd = start :: deliveries)
    (hchunks : ∀ data ∈ deliveries, data ∈ chunks) :
    CompletesFaithfully file chunks deliveries
        (reports (receiver.receiveAll toLowerCase' messages).2) ↔
      file.bytes ≠ [] ∧ ∀ earlier, earlier <+: deliveries → file.size ≤ deliveredBytes earlier →
        ∀ chunk ∈ chunks, chunk ∈ earlier := by
  rw [sentData_sendRealFile moment file (connected_of_sentData hsent)] at hsent
  obtain ⟨rfl, rfl⟩ := List.cons.inj hsent
  obtain ⟨is, rfl, his⟩ := exists_indices hchunks
  have hnever := neverEarly_iff file is moment.randomId
  constructor
  · intro hfaithful
    obtain ⟨hne, hearly⟩ := neverEarly_of_faithful his hmessages hfaithful
    exact ⟨hne, hnever.mp hearly⟩
  · rintro ⟨hne, hearly⟩
    exact faithful_of_neverEarly his hmessages hne (hnever.mpr hearly)

/-- The claim of a file: whatever engines send and receive it, at whatever time,
and whichever chunks come in whichever order. -/
def AlwaysFaithful (file : File) : Prop :=
  ∀ (toLowerCase toLowerCase' : Text → Text) (sender receiver : RealAuraMeshEngine) (moment : Moment)
    (start : PeerData) (chunks deliveries : List PeerData) (messages : List (Moment × PeerData)),
    sentData (sender.sendRealFile toLowerCase moment file).2 = start :: chunks →
    messages.map Prod.snd = start :: deliveries → (∀ data ∈ deliveries, data ∈ chunks) →
      CompletesFaithfully file chunks deliveries
        (reports (receiver.receiveAll toLowerCase' messages).2)

end transfer

end RealAuraMeshEngine

namespace FileTransfer

open RealAuraMeshEngine

def engine : RealAuraMeshEngine := ⟨some "aura-123456".toList, 0, 0, 0, 0, ∅⟩

theorem connected : engine.connection.isSome = true := rfl

def moment : Moment := ⟨1700000000000, "k3j9x".toList⟩

def lower (text : Text) : Text := text.map Char.toLower

def zeros (size : Nat) : File := ⟨"zeros.bin".toList, [], List.replicate size 0⟩

theorem length_zeros (size : Nat) : (zeros size).bytes.length = size := List.length_replicate

theorem chunkSize_eq : chunkSize = 16384 := by decide

theorem chunkCount_zeros (size : Nat) : chunkCount (zeros size) = (size + 16384 - 1) / 16384 := by
  rw [chunkCount, Pieces.count, length_zeros, chunkSize_eq]

theorem length_pieceOf_zeros (size i : Nat) :
    (pieceOf (zeros size) i).length = min 16384 (size - i * 16384) := by
  rw [pieceOf, Pieces.length_piece, length_zeros, chunkSize_eq]

def transfer (file : File) (is : List Nat) : List (Moment × PeerData) :=
  ((.fileMeta (headerOf lower moment.randomId file) : PeerData) ::
    is.map (chunkOf chunkSize moment.randomId file)).map fun data => (moment, data)

theorem transfer_messages (file : File) (is : List Nat) : (transfer file is).map Prod.snd =
    .fileMeta (headerOf lower moment.randomId file) ::
      is.map (chunkOf chunkSize moment.randomId file) := by
  rw [transfer, List.map_map]
  exact List.map_id _

theorem neverEarly_of_alwaysFaithful {file : File} (h : AlwaysFaithful file) (is : List Nat)
    (his : ∀ i ∈ is, i < chunkCount file) : file.bytes ≠ [] ∧ NeverEarly file is := by
  refine neverEarly_of_faithful his (transfer_messages file is)
    (h lower lower engine engine moment _ _ _ _ (sentData_sendRealFile moment file connected)
      (transfer_messages file is) fun data hdata => ?_)
  obtain ⟨i, hi, rfl⟩ := List.mem_map.mp hdata
  exact List.mem_map_of_mem (List.mem_range.mpr (his i hi))

/-- The second chunk comes first, and once more at the end. -/
theorem file_transfer_faithful_reordered : ∃ deliveries : List PeerData, deliveries.length = 3 ∧
    (CompletesFaithfully (zeros 20000) ((List.range 2).map (chunkOf chunkSize moment.randomId (zeros 20000)))
        deliveries (reports (engine.receiveAll lower (transfer (zeros 20000) [1, 0, 1])).2) ↔
      (zeros 20000).bytes ≠ [] ∧ ∀ earlier, earlier <+: deliveries →
        (zeros 20000).size ≤ deliveredBytes earlier →
          ∀ chunk ∈ (List.range 2).map (chunkOf chunkSize moment.randomId (zeros 20000)),
            chunk ∈ earlier) := by
  have hcount : chunkCount (zeros 20000) = 2 := chunkCount_zeros 20000
  have hsent : sentData (engine.sendRealFile lower moment (zeros 20000)).2 =
      .fileMeta (headerOf lower moment.randomId (zeros 20000)) ::
        (List.range 2).map (chunkOf chunkSize moment.randomId (zeros 20000)) := by
    rw [← hcount]
    exact sentData_sendRealFile moment (zeros 20000) connected
  refine ⟨[1, 0, 1].map (chunkOf chunkSize moment.randomId (zeros 20000)), rfl,
    file_transfer_faithful_iff hsent (transfer_messages _ _) fun data hdata => ?_⟩
  obtain ⟨i, hi, rfl⟩ := List.mem_map.mp hdata
  have hlt : ∀ i ∈ [1, 0, 1], i < 2 := by decide
  exact List.mem_map_of_mem (List.mem_range.mpr (hlt i hi))

/-- An empty file is never complete, and one of two chunks is so when the first
comes twice. -/
theorem file_transfer_unfaithful : ¬ AlwaysFaithful (zeros 0) ∧ ¬ AlwaysFaithful (zeros 20000) := by
  constructor
  · intro hclaim
    exact (neverEarly_of_alwaysFaithful hclaim [] (by simp)).1 rfl
  · intro hclaim
    have hcount : chunkCount (zeros 20000) = 2 := chunkCount_zeros 20000
    have hearly := (neverEarly_of_alwaysFaithful hclaim [0, 0] (by simp [hcount])).2
    have hsize : (zeros 20000).size = 20000 := length_zeros 20000
    have hbytes : (zeros 20000).size ≤
        ([0, 0].map fun i => (pieceOf (zeros 20000) i).length).sum := by
      rw [hsize, List.map_cons, List.map_cons, length_pieceOf_zeros]
      decide
    have hsecond := hearly [0, 0] (List.prefix_refl _) hbytes 1 (by omega)
    exact absurd hsecond (by decide)

end FileTransfer

end AuraChain
