import QuadSphere.Cell.Json
import QuadSphere.Proofs.Borders
import QuadSphere.Proofs.Levels
import QuadSphere.Proofs.Minimality
import QuadSphere.Proofs.Points
import QuadSphere.Proofs.Positions
import QuadSphere.Proofs.Rectangles
import QuadSphere.Proofs.Refinement
import QuadSphere.Proofs.Session
import QuadSphere.Proofs.Surroundings
import QuadSphere.Proofs.Tokens
import QuadSphere.Refusal.Json
import QuadSphere.Sphere.AngleText
