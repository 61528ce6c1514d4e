import Csc453.Malloc.Collapse
import Csc453.Malloc.Laws
import Csc453.Malloc.Pointers
import Csc453.Malloc.Foreign
import Csc453.Malloc.Refusal
import Csc453.Malloc.Find
import Csc453.Malloc.Objects
import Csc453.Malloc.Reports
import Csc453.Lwp.Runs
import Csc453.Lwp.Switching
import Csc453.Lwp.Lookup
import Csc453.Lwp.Context
import Csc453.Lwp.Queues
import Csc453.Dine.Transcript
import Csc453.Dine.Feast
import Csc453.Secret.Lifetime
import Csc453.Secret.Delivery
import Csc453.Secret.Ownership
import Csc453.Secret.Confidentiality
import Csc453.Secret.LiveUpdate
import Csc453.Secret.Mailbox
import Csc453.Secret.Client
import Csc453.Pipe.Progress
