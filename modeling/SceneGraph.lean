import SceneGraph.FrameClock.Text
import SceneGraph.Geometry.Text
import SceneGraph.RenderGraph.Table
import SceneGraph.Scene.Hierarchy
import SceneGraph.Scene.Text
import SceneGraph.Proofs.Assembly
import SceneGraph.Proofs.Cycles
import SceneGraph.Proofs.Coherence
import SceneGraph.Proofs.Rendering
import SceneGraph.Proofs.Models
import SceneGraph.Proofs.Presenting
import SceneGraph.Proofs.Attachment
import SceneGraph.Proofs.Arena
import SceneGraph.Proofs.Naming
import SceneGraph.Proofs.Usage
import SceneGraph.Proofs.Cells
import SceneGraph.Proofs.Reading
import SceneGraph.Proofs.Termination
import SceneGraph.Proofs.Materializing
import SceneGraph.Proofs.Timekeeping
import SceneGraph.Proofs.Inversion
import SceneGraph.Proofs.Pinning
import SceneGraph.Proofs.Registering
import SceneGraph.Proofs.Chronicle
import SceneGraph.Proofs.Refreshing
