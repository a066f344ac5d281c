/-!
# The prelude

The part of every session that is written in the language itself: three expanders for control
and a few functions on lists.
-/

namespace TinyLisp

/-- The text that every session evaluates first. -/
def prelude : String := "
(defmacro when (test &rest body) `(if ,test (begin ,@body) nil))
(defmacro unless (test &rest body) `(if ,test nil (begin ,@body)))
(defmacro cond (&rest clauses)
  (if (null? clauses)
      nil
      (let ((clause (car clauses)))
        (if (eq? (car clause) 'else)
            `(begin ,@(cdr clause))
            `(if ,(car clause)
                 (begin ,@(cdr clause))
                 (cond ,@(cdr clauses)))))))

(defun cadr (x) (car (cdr x)))
(defun cddr (x) (cdr (cdr x)))
(defun caddr (x) (car (cddr x)))

(defun filter (keep? xs)
  (cond ((null? xs) nil)
        ((keep? (car xs)) (cons (car xs) (filter keep? (cdr xs))))
        (else (filter keep? (cdr xs)))))

(defun foldl (f acc xs)
  (if (null? xs) acc (foldl f (f acc (car xs)) (cdr xs))))
"

end TinyLisp
