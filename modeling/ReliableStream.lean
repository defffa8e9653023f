import ReliableStream.Conversation.Plan
import ReliableStream.Endpoint.Text
import ReliableStream.Lan
import ReliableStream.LossyHub
import ReliableStream.Outbox.Op
import ReliableStream.Proofs.Accepts
import ReliableStream.Proofs.Accounting
import ReliableStream.Proofs.Address
import ReliableStream.Proofs.Agreement
import ReliableStream.Proofs.Allocation
import ReliableStream.Proofs.Backlog
import ReliableStream.Proofs.CleanUp
import ReliableStream.Proofs.Encodable
import ReliableStream.Proofs.FlowControl
import ReliableStream.Proofs.Grammar
import ReliableStream.Proofs.Independence
import ReliableStream.Proofs.Laps
import ReliableStream.Proofs.LateCopy
import ReliableStream.Proofs.Occupancy
import ReliableStream.Proofs.Partition
import ReliableStream.Proofs.Patience
import ReliableStream.Proofs.Reading
import ReliableStream.Proofs.Reclaim
import ReliableStream.Proofs.Refusal
import ReliableStream.Proofs.Repetition
import ReliableStream.Proofs.Reuse
import ReliableStream.Proofs.Silence
import ReliableStream.Proofs.Ticking
import ReliableStream.Proofs.Unread
import ReliableStream.Proofs.Waiters
import ReliableStream.Proofs.Wakeup
import ReliableStream.Proofs.Writing
import ReliableStream.Table.Op
