import DurableAgent.Library.Interleaving
import DurableAgent.Library.FirstGap
import DurableAgent.Library.FirstWriter
import DurableAgent.Library.Dict
import DurableAgent.Progression
import DurableAgent.Completion
import DurableAgent.Locking
import DurableAgent.Contention
import DurableAgent.SinglePlan
import DurableAgent.Lineage
import DurableAgent.Sequential
import DurableAgent.Library.Receiver
import DurableAgent.Gateway
import DurableAgent.Agreement
import DurableAgent.Tokens
import DurableAgent.Library.Replay
import DurableAgent.Uninterrupted
import DurableAgent.Outcomes
import DurableAgent.Recovery
import DurableAgent.Straight
import DurableAgent.Resumption
import DurableAgent.Transparency
import DurableAgent.Confluence
import DurableAgent.Admission
import DurableAgent.InFlight
import DurableAgent.Contract
import DurableAgent.Submissions
import DurableAgent.Leases
import DurableAgent.Leased
import DurableAgent.RoundTrip
import DurableAgent.Checkpoints
import DurableAgent.Attribution
import DurableAgent.Ask
import DurableAgent.Library.Simulation
import DurableAgent.Library.Client
import DurableAgent.Postgres
import DurableAgent.Backends
import DurableAgent.OverStore
import DurableAgent.Interchange
import DurableAgent.Deployments
import DurableAgent.Decoder
import DurableAgent.Decoding
import DurableAgent.Scanner
import DurableAgent.Healing
import DurableAgent.Answers
import DurableAgent.Drafts
import DurableAgent.Escapes
import DurableAgent.Denotation
import DurableAgent.Exactness
import DurableAgent.Replies
import DurableAgent.Rendering
import DurableAgent.Columns
import DurableAgent.Corrections
import DurableAgent.Documents
import DurableAgent.Providers
import DurableAgent.Guard
import DurableAgent.Spending
