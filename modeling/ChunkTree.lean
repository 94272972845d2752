import ChunkTree.Main
import ChunkTree.Proofs.Answers
import ChunkTree.Proofs.Arguments
import ChunkTree.Proofs.Binding
import ChunkTree.Proofs.Branching
import ChunkTree.Proofs.Calls
import ChunkTree.Proofs.Calm
import ChunkTree.Proofs.Chains
import ChunkTree.Proofs.ChunkFiles
import ChunkTree.Proofs.ChunkPlaces
import ChunkTree.Proofs.Commands
import ChunkTree.Proofs.Damage
import ChunkTree.Proofs.Depths
import ChunkTree.Proofs.Dialogues
import ChunkTree.Proofs.DiskFaults
import ChunkTree.Proofs.DiskRuns
import ChunkTree.Proofs.DiskTable
import ChunkTree.Proofs.Durability
import ChunkTree.Proofs.Encoding
import ChunkTree.Proofs.Fetching
import ChunkTree.Proofs.FileChanges
import ChunkTree.Proofs.HostileStores
import ChunkTree.Proofs.InputFiles
import ChunkTree.Proofs.Integrity
import ChunkTree.Proofs.KeyTexts
import ChunkTree.Proofs.Leaves
import ChunkTree.Proofs.Logs
import ChunkTree.Proofs.Mirrors
import ChunkTree.Proofs.Moments
import ChunkTree.Proofs.Nodes
import ChunkTree.Proofs.OpenStores
import ChunkTree.Proofs.OwnWrites
import ChunkTree.Proofs.PathNames
import ChunkTree.Proofs.Provided
import ChunkTree.Proofs.Readers
import ChunkTree.Proofs.Refetching
import ChunkTree.Proofs.Restarts
import ChunkTree.Proofs.RoundTrip
import ChunkTree.Proofs.Runs
import ChunkTree.Proofs.Services
import ChunkTree.Proofs.Sharing
import ChunkTree.Proofs.Starts
import ChunkTree.Proofs.Storing
import ChunkTree.Proofs.Streaming
import ChunkTree.Proofs.TreeOrder
import ChunkTree.Proofs.Turns
import ChunkTree.Proofs.Views
import ChunkTree.Proofs.Visits
import ChunkTree.Proofs.Ways
import ChunkTree.Proofs.WordSizes
import ChunkTree.Proofs.WriteBehind
import ChunkTree.Workbench
