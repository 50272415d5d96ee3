import RailAtlas.Main
import RailAtlas.World.Replay
import RailAtlas.Proofs.Registry.Simulation
import RailAtlas.Proofs.World.History
import RailAtlas.Proofs.World.Rebuild
import RailAtlas.Proofs.World.Attribution
import RailAtlas.Proofs.World.InPlace
import RailAtlas.Proofs.Service.Ledger
import RailAtlas.Proofs.World.Placements
import RailAtlas.Proofs.World.Seeds
import RailAtlas.Proofs.Index.Bystanders
import RailAtlas.Proofs.Index.Uniqueness
import RailAtlas.Proofs.Index.Residue
import RailAtlas.Proofs.World.Despawning
import RailAtlas.Proofs.World.Chronicle
import RailAtlas.Proofs.Index.Notices
import RailAtlas.Proofs.World.Undegraded
import RailAtlas.Proofs.Index.Locating
import RailAtlas.Proofs.Registry.Queries
import RailAtlas.Proofs.Registry.Lookups
import RailAtlas.Proofs.Registry.Subtree
import RailAtlas.Proofs.World.Locating
import RailAtlas.Proofs.World.Ownership
import RailAtlas.Proofs.Service.Window
import RailAtlas.Proofs.Index.Summaries
import RailAtlas.Proofs.World.Exposure
import RailAtlas.Proofs.World.Encoding
import RailAtlas.Proofs.Network.Chains
