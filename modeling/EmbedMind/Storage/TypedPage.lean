import EmbedMind.Storage.Pages

/-!
# Pages with a body after their header

Every index writes its pages the same way: zeros, the common header, a body right after
it, the checksum. The header and the body read back.
-/

namespace EmbedMind

open Lib

/-- A zeroed page with a header and a body, stamped. -/
def typedPage (H : Xxh3) (header : PageHeader) (pageSize : Nat) (body : Bytes) : Bytes :=
  stampPageChecksum H (splice (header.encodeInto (List.replicate pageSize 0)) PAGE_HEADER_LEN body)

variable {H : Xxh3} {header : PageHeader} {pageSize : Nat} {body : Bytes}

@[simp] theorem typedPage_length : (typedPage H header pageSize body).length = pageSize := by
  simp [typedPage]

/-- A typed page is stamped. -/
theorem stamp_typedPage : stampPageChecksum H (typedPage H header pageSize body) =
    typedPage H header pageSize body :=
  stampPageChecksum_idem H _

/-- A typed page has a valid checksum. -/
theorem typedPage_valid (hlo : PAGE_TRAILER_LEN ≤ pageSize) :
    pageChecksumIsValid H (typedPage H header pageSize body) = true := by
  refine pageChecksumIsValid_stamp H ?_
  rwa [splice_length, PageHeader.encodeInto_length, List.length_replicate]

/-- The header of a typed page is read back. -/
theorem typedPage_header (hlo : 512 ≤ pageSize) (hcount : header.entryCount < 2 ^ 32)
    (hnext : header.nextPage < 2 ^ 64) : PageHeader.decode (typedPage H header pageSize body) = some header := by
  have hzeros : 16 ≤ (List.replicate pageSize (0 : UInt8)).length := by
    rw [List.length_replicate]
    omega
  refine PageHeader.decode_of_slice hzeros hcount hnext ?_
  rw [typedPage, slice_stampPageChecksum H _ (by
      rw [splice_length, PageHeader.encodeInto_length, List.length_replicate, PAGE_TRAILER_LEN]
      omega),
    slice_splice_disjoint (Or.inl (by simp only [PAGE_HEADER_LEN]; omega))]

/-- The body of a typed page stands behind its header. -/
theorem typedPage_body
    (hfit : PAGE_HEADER_LEN + body.length ≤ pageSize - PAGE_TRAILER_LEN) :
    HasAt (typedPage H header pageSize body) PAGE_HEADER_LEN body := by
  have hin : PAGE_HEADER_LEN + body.length ≤ (header.encodeInto (List.replicate pageSize 0)).length := by
    rw [PageHeader.encodeInto_length, List.length_replicate]
    simp only [PAGE_TRAILER_LEN] at hfit
    omega
  refine (hasAt_splice hin).splice (Or.inl ?_)
  rw [splice_length, PageHeader.encodeInto_length, List.length_replicate]
  exact hfit

end EmbedMind
