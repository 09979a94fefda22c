import TreeSchema.Synthesis.Basic
import TreeSchema.Values.Text
import TreeSchema.Proofs.Render.TopDown
import TreeSchema.Proofs.Render.Shortcuts
import TreeSchema.Proofs.Render.Columns
import TreeSchema.Proofs.Render.Reading
import TreeSchema.Proofs.Render.Widening
import TreeSchema.Proofs.Render.Depths
import TreeSchema.Proofs.Render.Breaks
import TreeSchema.Proofs.Render.Blanks
import TreeSchema.Proofs.Render.Cursor
import TreeSchema.Proofs.Render.Shifts
import TreeSchema.Proofs.Values.WriteOnce
import TreeSchema.Proofs.Synthesis.OverlayLaws
import TreeSchema.Proofs.Synthesis.Indexes
import TreeSchema.Proofs.Synthesis.OwnNames
import TreeSchema.Proofs.Values.Rendering
import TreeSchema.Proofs.Values.Construction
import TreeSchema.Proofs.Synthesis.Constants
import TreeSchema.Proofs.Synthesis.Variants
import TreeSchema.Proofs.Values.Equality
import TreeSchema.Proofs.Values.Interchange
import TreeSchema.Proofs.Values.BareTags
import TreeSchema.Proofs.Views.Contributions
import TreeSchema.Proofs.Views.UnsetPolicy
