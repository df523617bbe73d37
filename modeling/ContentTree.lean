import ContentTree.FaultyConnection
import ContentTree.Random.ChaCha
import ContentTree.Replay
import ContentTree.ScriptedSink
import ContentTree.Session
import ContentTree.Stream
import ContentTree.Toml.Characters
import ContentTree.Toml.Value
import ContentTree.Toml.Number
import ContentTree.Toml.Quoted
import ContentTree.Toml.Document
import ContentTree.Settings.File
import ContentTree.Workbench
import ContentTree.Workbench.Files
import ContentTree.Proofs.Cover
import ContentTree.Proofs.Deletion
import ContentTree.Proofs.InnerLayout
import ContentTree.Proofs.Insertion
import ContentTree.Proofs.Repetition
import ContentTree.Proofs.Requests.MachineRuns
import ContentTree.Proofs.Requests.Freshness
import ContentTree.Proofs.Requests.Priorities
import ContentTree.Proofs.Requests.Sleep
import ContentTree.Proofs.Requests.Congestion
import ContentTree.Proofs.Requests.TimeToLive
import ContentTree.Proofs.Requests.Undoing
import ContentTree.Proofs.Settings.File
import ContentTree.Proofs.Stream.Alignment
import ContentTree.Proofs.Transfer.Completion
import ContentTree.Proofs.Tree.Cascade
import ContentTree.Proofs.Tree.Checksums
import ContentTree.Proofs.Tree.Endgame
import ContentTree.Proofs.Tree.Levels
import ContentTree.Proofs.Tree.Recovery
import ContentTree.Proofs.Tree.Resume
import ContentTree.Proofs.Requests.Verdicts
