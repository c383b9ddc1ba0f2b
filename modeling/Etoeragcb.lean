import Etoeragcb.Auth.Theorems
import Etoeragcb.Chat.Theorems
import Etoeragcb.Chat.Theorems.Delivery
import Etoeragcb.Core.Theorems
import Etoeragcb.Frontend.Theorems.Markdown
import Etoeragcb.Content.Theorems
import Etoeragcb.Documents.Theorems
import Etoeragcb.Evaluation.Theorems
import Etoeragcb.Ingest.Theorems
import Etoeragcb.Rag.Theorems
import Etoeragcb.Rag.Theorems.Coherence
import Etoeragcb.Rag.Theorems.Packing
import Etoeragcb.Rag.Theorems.Reranking
import Etoeragcb.Rag.Theorems.Rerun
import Etoeragcb.Frontend.Theorems
import Etoeragcb.Sessions.Theorems
import Etoeragcb.Sessions.Theorems.Listing
import Etoeragcb.Web.Theorems
