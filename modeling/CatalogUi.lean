import CatalogUi.LiveView
import CatalogUi.Activation
import CatalogUi.Main
import CatalogUi.Proofs.Walk
import CatalogUi.Proofs.Element
import CatalogUi.Proofs.Acceptance
import CatalogUi.Proofs.Shape
import CatalogUi.Proofs.Ancestry
import CatalogUi.Proofs.Rendering
import CatalogUi.Proofs.Rendition
import CatalogUi.Proofs.Eligibility
import CatalogUi.Proofs.Segment
import CatalogUi.Proofs.Step
import CatalogUi.Proofs.Write
import CatalogUi.Proofs.Lens
import CatalogUi.Proofs.Frame
import CatalogUi.Proofs.Sameness
import CatalogUi.Proofs.Series
import CatalogUi.Proofs.Batch
import CatalogUi.Proofs.Independence
import CatalogUi.Proofs.Conformance
import CatalogUi.Proofs.Soundness
import CatalogUi.Proofs.Defaults
import CatalogUi.Proofs.Gating
import CatalogUi.Proofs.Spelling
import CatalogUi.Proofs.Document
import CatalogUi.Proofs.Descriptor
import CatalogUi.Proofs.Dump
import CatalogUi.Proofs.Visibility
import CatalogUi.Proofs.Violation
import CatalogUi.Proofs.Exactness
import CatalogUi.Proofs.History
import CatalogUi.Proofs.Notification
import CatalogUi.Proofs.Board
import CatalogUi.Proofs.Attachment
import CatalogUi.Proofs.LiveSession
import CatalogUi.Proofs.Freshness
import CatalogUi.Proofs.Descent
import CatalogUi.Proofs.Diagnosis
import CatalogUi.Proofs.Cycles
import CatalogUi.Proofs.Parts
import CatalogUi.Proofs.Notation
import CatalogUi.Proofs.Address
import CatalogUi.Proofs.Alignment
import CatalogUi.Proofs.Delivery
import CatalogUi.Proofs.Reading
import CatalogUi.Proofs.Exchange
import CatalogUi.Proofs.Permutation
import CatalogUi.Proofs.Obstacle
import CatalogUi.Proofs.Grammar
import CatalogUi.Proofs.Pruning
import CatalogUi.Proofs.Binding
import CatalogUi.Proofs.Accounting
import CatalogUi.Proofs.Mistakes
import CatalogUi.Proofs.Dependence
import CatalogUi.Proofs.Delimiter
import CatalogUi.Proofs.PathOrder
import CatalogUi.Proofs.Effort
import CatalogUi.Proofs.Line
import CatalogUi.Proofs.Outline
import CatalogUi.Proofs.Bounds
