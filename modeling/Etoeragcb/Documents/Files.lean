import Etoeragcb.Models.Content

/-!
# Signed files

The page checks of `app/documents/files.py`.
-/

namespace Etoeragcb.Documents

open Models

/-- `create_signed_url` answers `Page is outside the document`. -/
def pageOutside (version : DocumentVersion) (page : Option Nat) : Bool :=
  page.any fun p => version.pageCount < p || version.pageCount = 0

/-- `read_signed_file` does not find the page of a token. -/
def pageMissing (version : DocumentVersion) (page : Option Nat) : Bool :=
  page.any fun p => version.pageCount = 0 || version.pageCount < p

end Etoeragcb.Documents
